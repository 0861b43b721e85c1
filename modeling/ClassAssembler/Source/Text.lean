import ClassAssembler.Document.Format
import ClassAssembler.Source.Basic

/-!
# Class sources as texts

Every key has to be known and every value has to have the type of its field; only the initial value
of a field may be anything.
-/

namespace ClassAssembler

namespace InitialValue

def ofDocument : Document → InitialValue
  | .scalar _ (.day shown) => .composite shown
  | .scalar _ v => .value v.toValue
  | d => .composite d.describe

end InitialValue

namespace FieldSource

def keys (f : DocumentFormat) : List (DocumentFormat.Key FieldSource) :=
  [⟨"access", fun d s => (f.texts? d).map fun access => { s with access }⟩,
    ⟨"name", fun d s => (f.text? d s.name).map fun name => { s with name }⟩,
    ⟨"desc", fun d s => (f.text? d s.desc).map fun desc => { s with desc }⟩,
    ⟨"signature", fun d s => (f.text? d s.signature).map fun signature => { s with signature }⟩,
    ⟨"value", fun d s => some { s with value := .ofDocument d }⟩]

end FieldSource

namespace MethodSource

def keys (f : DocumentFormat) : List (DocumentFormat.Key MethodSource) :=
  [⟨"access", fun d s => (f.texts? d).map fun access => { s with access }⟩,
    ⟨"name", fun d s => (f.text? d s.name).map fun name => { s with name }⟩,
    ⟨"desc", fun d s => (f.text? d s.desc).map fun desc => { s with desc }⟩,
    ⟨"signature", fun d s => (f.text? d s.signature).map fun signature => { s with signature }⟩,
    ⟨"exceptions", fun d s => (f.texts? d).map fun exceptions => { s with exceptions }⟩,
    ⟨"code", fun d s => (f.text? d s.code).map fun code => { s with code }⟩]

end MethodSource

namespace ClassSource

def keys (f : DocumentFormat) : List (DocumentFormat.Key ClassSource) :=
  [⟨"version", fun d s => (f.integer? d s.version).map fun version => { s with version }⟩,
    ⟨"access", fun d s => (f.texts? d).map fun access => { s with access }⟩,
    ⟨"name", fun d s => (f.text? d s.name).map fun name => { s with name }⟩,
    ⟨"signature", fun d s => (f.text? d s.signature).map fun signature => { s with signature }⟩,
    ⟨"super", fun d s => (f.text? d s.super).map fun super => { s with super }⟩,
    ⟨"interfaces", fun d s => (f.texts? d).map fun interfaces => { s with interfaces }⟩,
    ⟨"source", fun d s => (f.text? d s.source).map fun source => { s with source }⟩,
    ⟨"fields", fun d s =>
      (f.items? (fun d => f.record? true (FieldSource.keys f) d {}) d).map fun fields =>
        { s with fields }⟩,
    ⟨"methods", fun d s =>
      (f.items? (fun d => f.record? true (MethodSource.keys f) d {}) d).map fun methods =>
        { s with methods }⟩]

def ofText? (f : DocumentFormat) (t : Text) : Option ClassSource :=
  match f.read? t with
  | some (.document d) => f.record? true (keys f) d {}
  | _ => none

end ClassSource

end ClassAssembler
