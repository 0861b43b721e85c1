import ClassAssembler.Main
import ClassAssembler.Proofs.Ancestors
import ClassAssembler.Proofs.ArrayTypes
import ClassAssembler.Proofs.Counts
import ClassAssembler.Proofs.Descriptors
import ClassAssembler.Proofs.Disassembling
import ClassAssembler.Proofs.EventStreams
import ClassAssembler.Proofs.ExplicitFrames
import ClassAssembler.Proofs.Freezing
import ClassAssembler.Proofs.PoolValues
import ClassAssembler.Proofs.ProtectedRanges
import ClassAssembler.Proofs.TypePaths
import ClassAssembler.Proofs.BackingArrays
import ClassAssembler.Proofs.SavedConfigs
