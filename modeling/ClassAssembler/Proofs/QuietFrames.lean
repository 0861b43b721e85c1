import ClassAssembler.Proofs.Quiet

/-!
# Frames and stack heights leave the code alone

Following the frame of a block, merging it into those of its successors, writing stack maps and
computing stack heights are quiet.
-/

namespace ClassAssembler

/-! ## Types of slots -/

namespace SlotType

instance quiet_ofField (t : Text) : Keeps Quiet (ofField t) := by
  unfold ofField
  split
  · infer_instance
  · dsimp only
    split <;> try infer_instance
    split
    · infer_instance
    · split <;> infer_instance

instance quiet_ofDescriptor (desc : Text) : Keeps Quiet (ofDescriptor desc) := by
  unfold ofDescriptor
  split
  · infer_instance
  · split
    · split <;> infer_instance
    · infer_instance

instance quiet_ofName (name : Text) : Keeps Quiet (ofName name) := quiet_ofDescriptor _

instance quiet_receiver (isConstructor : Bool) : Keeps Quiet (receiver isConstructor) := by
  unfold receiver
  infer_instance

instance quiet_ofParameters (ts : List JavaType) : Keeps Quiet (ofParameters ts) := by
  induction ts with
  | nil =>
    unfold ofParameters
    infer_instance
  | cons t ts ih =>
    unfold ofParameters
    infer_instance

instance quiet_objectArray (dims : Nat) : Keeps Quiet (objectArray dims) := by
  unfold objectArray
  infer_instance

instance quiet_join (t u : SlotType) : Keeps Quiet (join t u) := by
  unfold join
  infer_instance

instance quiet_mergeInto (t u : SlotType) : Keeps Quiet (mergeInto t u) := by
  unfold mergeInto
  split
  · infer_instance
  · dsimp only
    split
    · infer_instance
    · split
      · infer_instance
      · refine keeps_then fun r => ?_
        split <;> infer_instance

instance quiet_className (i : Nat) : Keeps Quiet (className i) := by
  unfold className
  infer_instance

instance quiet_arrayDescriptor (t : SlotType) : Keeps Quiet (arrayDescriptor t) := by
  unfold arrayDescriptor
  dsimp only
  split <;> infer_instance

instance quiet_toItem (t : SlotType) : Keeps Quiet (toItem t) := by
  unfold toItem
  split
  · split <;> infer_instance
  · infer_instance

instance quiet_toItems (ts : List SlotType) : Keeps Quiet (toItems ts) := by
  induction ts with
  | nil =>
    unfold toItems
    infer_instance
  | cons t ts ih =>
    unfold toItems
    infer_instance

end SlotType

/-! ## Merging -/

instance MergedSlots.quiet_merge (m : MergedSlots) (t : SlotType) (i : Int) :
    Keeps Quiet (m.merge t i) := by
  unfold MergedSlots.merge
  split
  · infer_instance
  · refine keeps_then fun u => keeps_then fun r => ?_
    split <;> infer_instance

namespace Frame

instance quiet_afterInitialization (f : Frame) (locals stack : Array SlotType) (t : SlotType) :
    Keeps Quiet (f.afterInitialization locals stack t) := by
  unfold afterInitialization
  split
  · infer_instance
  · dsimp only
    split
    · refine keeps_then fun s => keeps_then fun c => ?_
      split <;> infer_instance
    · split
      · refine keeps_then fun e => keeps_then fun c => ?_
        split <;> infer_instance
      · refine keeps_then fun c => ?_
        split <;> infer_instance

instance quiet_leavingLocal (f : Frame) (i : Nat) : Keeps Quiet (f.leavingLocal i) := by
  unfold leavingLocal
  infer_instance

instance quiet_leavingLocalsFrom (f : Frame) (n i : Nat) (acc : Array SlotType) :
    Keeps Quiet (f.leavingLocalsFrom n i acc) := by
  induction n generalizing i acc with
  | zero =>
    unfold leavingLocalsFrom
    infer_instance
  | succ n ih =>
    unfold leavingLocalsFrom
    infer_instance

instance quiet_leavingLocals (f : Frame) : Keeps Quiet f.leavingLocals := by
  unfold leavingLocals
  infer_instance

instance quiet_leavingSlots (f : Frame) (ts : List SlotType) (acc : Array SlotType) :
    Keeps Quiet (f.leavingSlots ts acc) := by
  induction ts generalizing acc with
  | nil =>
    unfold leavingSlots
    infer_instance
  | cons t ts ih =>
    unfold leavingSlots
    infer_instance

instance quiet_leavingEntry (f : Frame) (ts : List SlotType) (acc : Array SlotType) :
    Keeps Quiet (f.leavingEntry ts acc) := by
  induction ts generalizing acc with
  | nil =>
    unfold leavingEntry
    infer_instance
  | cons t ts ih =>
    unfold leavingEntry
    infer_instance

instance quiet_leavingStack (f : Frame) (inputHeight : Int) :
    Keeps Quiet (f.leavingStack inputHeight) := by
  unfold leavingStack
  infer_instance

instance quiet_mergeLocals (f : Frame) (entry : Array SlotType → Entry) (n i : Nat)
    (m : MergedSlots) : Keeps Quiet (f.mergeLocals entry n i m) := by
  induction n generalizing i m with
  | zero =>
    unfold mergeLocals
    infer_instance
  | succ n ih =>
    unfold mergeLocals
    infer_instance

instance quiet_mergeEntryLocals (f : Frame) (entry : Array SlotType → Entry) (n i : Nat)
    (m : MergedSlots) : Keeps Quiet (f.mergeEntryLocals entry n i m) := by
  induction n generalizing i m with
  | zero =>
    unfold mergeEntryLocals
    infer_instance
  | succ n ih =>
    unfold mergeEntryLocals
    infer_instance

instance quiet_mergeEntryStack (f : Frame) (entry : Array SlotType → Entry) (n i : Nat)
    (m : MergedSlots) : Keeps Quiet (f.mergeEntryStack entry n i m) := by
  induction n generalizing i m with
  | zero =>
    unfold mergeEntryStack
    infer_instance
  | succ n ih =>
    unfold mergeEntryStack
    infer_instance

instance quiet_mergeOutputStack (f : Frame) (entry : Array SlotType → Entry) (base : Int)
    (ts : List SlotType) (i : Nat) (m : MergedSlots) :
    Keeps Quiet (f.mergeOutputStack entry base ts i m) := by
  induction ts generalizing i m with
  | nil =>
    unfold mergeOutputStack
    infer_instance
  | cons t ts ih =>
    unfold mergeOutputStack
    infer_instance

instance quiet_merge (f : Frame) (inputHeight : Int) (target : Frame) (isLoop : Bool)
    (edge : EdgeKind) : Keeps Quiet (f.merge inputHeight target isLoop edge) := by
  unfold merge
  dsimp only
  refine keeps_then fun locals => ?_
  split <;> infer_instance

end Frame

/-! ## Following instructions -/

namespace FrameM

instance quiet_push (t : SlotType) : Keeps Frame.SameCode (push t) := by
  unfold push
  infer_instance

instance quiet_pushAll (ts : List SlotType) : Keeps Frame.SameCode (pushAll ts) := by
  induction ts with
  | nil =>
    unfold pushAll
    infer_instance
  | cons t ts ih =>
    unfold pushAll
    infer_instance

instance quiet_pop : Keeps Frame.SameCode pop := by
  refine keeps_then fun f => ?_
  split <;> infer_instance

instance quiet_popMany (n : Int) : Keeps Frame.SameCode (popMany n) := by
  unfold popMany
  infer_instance

instance quiet_popList (n : Nat) : Keeps Frame.SameCode (popList n) := by
  induction n with
  | zero =>
    unfold popList
    infer_instance
  | succ n ih =>
    unfold popList
    infer_instance

instance quiet_pushDescribed (desc : Text) : Keeps Frame.SameCode (pushDescribed desc) := by
  unfold pushDescribed
  infer_instance

instance quiet_popDescribed (desc : Text) : Keeps Frame.SameCode (popDescribed desc) := by
  unfold popDescribed
  split
  · infer_instance
  · split <;> infer_instance

instance quiet_getLocal (i : Int) : Keeps Frame.SameCode (getLocal i) := by
  unfold getLocal
  infer_instance

instance quiet_setLocal (i : Int) (t : SlotType) : Keeps Frame.SameCode (setLocal i t) := by
  unfold setLocal
  infer_instance

instance quiet_spoilPrevious (i : Int) : Keeps Frame.SameCode (spoilPrevious i) := by
  unfold spoilPrevious
  infer_instance

instance quiet_operand (c : Option Constant) : Keeps Frame.SameCode (operand c) := by
  unfold operand
  infer_instance

instance quiet_constantType (c : Constant) : Keeps Frame.SameCode (constantType c) := by
  unfold constantType
  split <;> infer_instance

instance quiet_firstByte (t : Text) : Keeps Frame.SameCode (firstByte t) := by
  unfold firstByte
  split <;> infer_instance

instance quiet_apply (e : Effect) (arg : Int) (c : Option Constant) :
    Keeps Frame.SameCode (apply e arg c) := by
  unfold apply
  split <;> infer_instance

instance quiet_settle : Keeps Frame.SameCode settle := by
  unfold settle
  infer_instance

instance quiet_execute (op arg : Int) (c : Option Constant) :
    Keeps Frame.SameCode (execute op arg c) := by
  unfold execute
  infer_instance

end FrameM

/-! ## Stack maps -/

namespace MapFrame

instance quiet_putFull (f : MapFrame) (b : Buffer) : Keeps Quiet (f.putFull b) := by
  unfold putFull
  infer_instance

instance quiet_putForm (f : MapFrame) (distance : Int) (b : Buffer) (form : FrameForm) :
    Keeps Quiet (f.putForm distance b form) := by
  unfold putForm
  split <;> infer_instance

instance quiet_put (f before : MapFrame) (isFirst : Bool) (b : Buffer) :
    Keeps Quiet (f.put before isFirst b) := by
  unfold put
  infer_instance

end MapFrame

namespace MethodM

instance quiet_addEdge (block : LabelId) (kind : EdgeKind) (target : LabelId) :
    Keeps Quiet (addEdge block kind target) := by
  unfold addEdge
  infer_instance

instance quiet_aliasBlock (l block : LabelId) : Keeps Quiet (aliasBlock l block) := by
  unfold aliasBlock
  infer_instance

instance quiet_markTarget (l : LabelId) : Keeps Quiet (markTarget l) := by
  unfold markTarget
  infer_instance

instance quiet_requireResolved (op : String) (l : LabelId) :
    Keeps Quiet (requireResolved op l) := by
  unfold requireResolved
  infer_instance

instance quiet_failItem : Keeps Pool.Grows failItem := by
  unfold failItem
  infer_instance

instance quiet_failFrame (reason : String) : Keeps Pool.Grows (failFrame reason) := by
  unfold failFrame
  infer_instance

instance quiet_failDuplicate (offset : Nat) : Keeps Pool.Grows (failDuplicate offset) := by
  unfold failDuplicate
  infer_instance

instance quiet_itemType (i : FrameItem LabelId) : Keeps Quiet (itemType i) := by
  unfold itemType
  split <;> infer_instance

instance quiet_itemTypes (is : List (FrameItem LabelId)) : Keeps Quiet (itemTypes is) := by
  induction is with
  | nil =>
    unfold itemTypes
    infer_instance
  | cons i is ih =>
    unfold itemTypes
    infer_instance

instance quiet_inputTypes (i : FrameItem LabelId) : Keeps Quiet (inputTypes i) := by
  unfold inputTypes
  split <;> infer_instance

instance quiet_allInputTypes (is : List (FrameItem LabelId)) : Keeps Quiet (allInputTypes is) := by
  induction is with
  | nil =>
    unfold allInputTypes
    infer_instance
  | cons i is ih =>
    unfold allInputTypes
    infer_instance

instance quiet_itemOf (i : FrameItem LabelId) : Keeps Quiet (itemOf i) := by
  unfold itemOf
  split <;> infer_instance

instance quiet_itemsOf (is : List (FrameItem LabelId)) : Keeps Quiet (itemsOf is) := by
  induction is with
  | nil =>
    unfold itemsOf
    infer_instance
  | cons i is ih =>
    unfold itemsOf
    infer_instance

instance quiet_requireAllResolved (op : String) (ls : List LabelId) :
    Keeps Quiet (requireAllResolved op ls) := by
  induction ls with
  | nil =>
    unfold requireAllResolved
    infer_instance
  | cons l ls ih =>
    unfold requireAllResolved
    infer_instance

end MethodM

/-! ## Stack heights -/

namespace SessionM

open MethodM

instance quiet_chainFrom (stop : Option LabelId) (n : Nat) (l : Option LabelId)
    (acc : Array LabelId) : Keeps Quiet (chainFrom stop n l acc) := by
  induction n generalizing l acc with
  | zero =>
    unfold chainFrom
    infer_instance
  | succ n ih =>
    cases l <;> unfold chainFrom <;> infer_instance

instance quiet_chain (start : LabelId) (stop : Option LabelId) :
    Keeps Quiet (chain start stop) := by
  unfold chain
  infer_instance

instance quiet_callEdges (l : LabelId) : Keeps Quiet (callEdges l) := by
  refine keeps_then fun b => ?_
  split <;> infer_instance

instance quiet_enqueue (ls work : List LabelId) : Keeps Quiet (enqueue ls work) := by
  induction ls generalizing work with
  | nil =>
    unfold enqueue
    infer_instance
  | cons l ls ih =>
    unfold enqueue
    infer_instance

instance quiet_dequeued (l : LabelId) : Keeps Quiet (dequeued l) := by
  unfold dequeued
  infer_instance

instance quiet_edgeBound : Keeps Quiet edgeBound := by
  unfold edgeBound
  infer_instance

instance quiet_claimBlocks (id n : Nat) (work : List LabelId) :
    Keeps Quiet (claimBlocks id n work) := by
  induction n generalizing work with
  | zero =>
    unfold claimBlocks
    infer_instance
  | succ n ih =>
    cases work <;> unfold claimBlocks <;> infer_instance

instance quiet_linkReturns (call : LabelId) (n : Nat) (work : List LabelId) :
    Keeps Quiet (linkReturns call n work) := by
  induction n generalizing work with
  | zero =>
    unfold linkReturns
    infer_instance
  | succ n ih =>
    cases work with
    | nil =>
      unfold linkReturns
      infer_instance
    | cons l work =>
      unfold linkReturns
      dsimp only
      refine keeps_then fun _ => keeps_then fun b => ?_
      split <;> infer_instance

instance quiet_claimSubroutine (id : Nat) (start : LabelId) :
    Keeps Quiet (claimSubroutine id start) := by
  unfold claimSubroutine
  infer_instance

instance quiet_linkCall (blocks : Array LabelId) (call : LabelId) :
    Keeps Quiet (linkCall blocks call) := by
  unfold linkCall
  infer_instance

instance quiet_claimCalls (calls : List LabelId) (id : Nat) :
    Keeps Quiet (claimCalls calls id) := by
  induction calls generalizing id with
  | nil =>
    unfold claimCalls
    infer_instance
  | cons call calls ih =>
    unfold claimCalls
    infer_instance

instance quiet_callsIn (blocks : Array LabelId) : Keeps Quiet (callsIn blocks) := by
  unfold callsIn
  infer_instance

instance quiet_joinSubroutines (entry : LabelId) : Keeps Quiet (joinSubroutines entry) := by
  unfold joinSubroutines
  infer_instance

instance quiet_addHandlerEdge (handler block : LabelId) :
    Keeps Quiet (addHandlerEdge handler block) := by
  refine keeps_then fun b => ?_
  split
  · split <;> infer_instance
  · infer_instance

instance quiet_enterSuccessors (height : Int) (es : List Edge) (work : List LabelId) :
    Keeps Quiet (enterSuccessors height es work) := by
  induction es generalizing work with
  | nil =>
    unfold enterSuccessors
    infer_instance
  | cons e es ih =>
    unfold enterSuccessors
    infer_instance

instance quiet_largestHeight (n : Nat) (work : List LabelId) (largest : Int) :
    Keeps Quiet (largestHeight n work largest) := by
  induction n generalizing work largest with
  | zero =>
    unfold largestHeight
    infer_instance
  | succ n ih =>
    cases work <;> unfold largestHeight <;> infer_instance

/-! ## The frames of all blocks -/

instance quiet_flowInto (source : FrameId) (edge : Edge) (work : List LabelId) :
    Keeps Quiet (flowInto source edge work) := by
  unfold flowInto
  infer_instance

instance quiet_flowIntoAll (source : FrameId) (es : List Edge) (work : List LabelId) :
    Keeps Quiet (flowIntoAll source es work) := by
  induction es generalizing work with
  | nil =>
    unfold flowIntoAll
    infer_instance
  | cons e es ih =>
    unfold flowIntoAll
    infer_instance

instance quiet_settleFrames (n : Nat) (work : List LabelId) (largest : Int) :
    Keeps Quiet (settleFrames n work largest) := by
  induction n generalizing work largest with
  | zero =>
    unfold settleFrames
    infer_instance
  | succ n ih =>
    cases work <;> unfold settleFrames <;> infer_instance

instance quiet_changeBound (maxLocals : Int) (codeSize : Nat) :
    Keeps Quiet (changeBound maxLocals codeSize) := by
  unfold changeBound
  infer_instance

end SessionM

end ClassAssembler
