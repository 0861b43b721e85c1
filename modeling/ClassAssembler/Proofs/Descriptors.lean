import ClassAssembler.Proofs.StackMaps
import ClassAssembler.Proofs.TypeRequests

/-!
# The readers of method descriptors

A method descriptor is read by several scanners: one lists the parameters, one finds the result, one
adds up slots, and the frame that a method begins with is made from the parameters.  On every
descriptor that follows the grammar they agree.  The exception is a parameter that is an array of
longs or doubles with a multiple of sixteen dimensions: slot types count dimensions modulo sixteen,
so its slot type is that of a long or a double, which takes a slot too many.
-/

namespace ClassAssembler

open JavaType List SlotType FieldType

/-! ## The types in a descriptor -/

namespace ElementType

def isWide : ElementType → Bool
  | long | double => true
  | _ => false

end ElementType

namespace FieldType

def type (t : FieldType) : JavaType := ⟨t.sort, t.desc⟩

/-- An array whose slot type has lost its dimensions and is taken for a two-slot value. -/
def Wraps (t : FieldType) : Prop := t.dims ≠ 0 ∧ t.dims % 16 = 0 ∧ t.element.isWide

instance (t : FieldType) : Decidable t.Wraps := inferInstanceAs (Decidable (_ ∧ _ ∧ _))

theorem size_type (t : FieldType) :
    t.type.size = if t.dims = 0 ∧ t.element.isWide then 2 else 1 := by
  obtain ⟨dims, element⟩ := t
  cases dims with
  | zero => cases element <;> rfl
  | succ n => rfl

end FieldType

namespace JavaType

def ofResult : Option FieldType → JavaType
  | none => ⟨.void, "V"⟩
  | some t => t.type

def totalSize : List JavaType → Nat
  | [] => 0
  | t :: ts => t.size + totalSize ts

theorem ofDescriptor_ofResult (r : Option FieldType) :
    ofDescriptor (ofResult r).desc = ofResult r := by
  cases r with
  | none => rfl
  | some t => exact t.ofDescriptor_desc

theorem resultSize_ofResult (r : Option FieldType) :
    resultSize (ofResult r).desc = .ok (ofResult r).size := by
  cases r with
  | none => rfl
  | some t =>
    obtain ⟨dims, element⟩ := t
    cases dims with
    | zero => cases element <;> rfl
    | succ n => rfl

end JavaType

/-! ## Counting slots -/

namespace FieldType

theorem countSlots_object {name : Text} (hends : semicolon ∉ name) (rest : Text) (n : Nat) :
    countSlots (classMark :: (name ++ semicolon :: rest)) n = countSlots rest (n + 1) := by
  have hafter := Text.after?_append hends rest
  rw [countSlots, if_neg (by decide), if_pos rfl]
  split
  next rest' h =>
    cases hafter.symm.trans h
    rfl
  next h => cases hafter.symm.trans h

theorem countSlots_array (e : ElementType) (dims : Nat) (rest : Text) (n : Nat) :
    countSlots (bracket :: (replicate dims bracket ++ (e.desc ++ rest))) n =
      countSlots rest (n + 1) := by
  obtain ⟨r, hr⟩ := e.exists_desc
  have hdrop := dropWhile_brackets e.letter_ne_bracket dims (r ++ rest)
  rw [hr, cons_append, countSlots, if_neg (by decide), if_neg (by decide), if_pos rfl]
  dsimp only
  split
  next h => cases hdrop.symm.trans h
  next c r' h =>
    obtain ⟨rfl, rfl⟩ := List.cons.inj (hdrop.symm.trans h)
    cases e with
    | object name hends =>
      obtain rfl : name ++ [semicolon] = r := (List.cons.inj hr).2
      have hafter : Text.after? semicolon (name ++ [semicolon] ++ rest) = some rest := by
        simpa using Text.after?_append hends rest
      rw [if_pos (show (ElementType.object name hends).letter = classMark from rfl)]
      split
      next rest' h' =>
        cases hafter.symm.trans h'
        rfl
      next h' => cases hafter.symm.trans h'
    | _ =>
      obtain rfl : [] = r := (List.cons.inj hr).2
      rw [if_neg (by decide)]
      rfl

theorem countSlots_desc (t : FieldType) (rest : Text) (n : Nat) :
    countSlots (t.desc ++ rest) n = countSlots rest (n + t.type.size) := by
  rw [size_type]
  obtain ⟨dims, element⟩ := t
  cases dims with
  | succ dims =>
    have harray := countSlots_array element dims rest n
    simpa [desc, replicate_succ, append_assoc] using harray
  | zero =>
    cases element with
    | object name hends =>
      have hobject := countSlots_object hends rest n
      simpa [desc, ElementType.desc, ElementType.isWide] using hobject
    | _ =>
      show countSlots (_ :: rest) n = _
      rw [countSlots, if_neg (by decide), if_neg (by decide), if_neg (by decide)]
      rfl

end FieldType

namespace MethodType

/-- The type of a method that takes some values and gives a result. -/
def ofTypes (ps : List FieldType) (r : Option FieldType) : MethodType := ⟨ps, (ofResult r).desc⟩

variable {ps : List FieldType} {r : Option FieldType}

theorem argumentTypes_ofTypes (ps : List FieldType) (r : Option FieldType) :
    argumentTypes (ofTypes ps r).desc = .ok (ps.map type) := by
  rw [argumentTypes_desc]
  exact congrArg Except.ok (map_congr_left fun p _ => p.ofDescriptor_desc)

theorem returnType_ofTypes (hnames : ∀ p ∈ ps, closeParen ∉ p.desc) (r : Option FieldType) :
    (ofMethod (ofTypes ps r).desc).returnType = ofResult r := by
  have hbefore : closeParen ∉ openParen :: ps.flatMap FieldType.desc := by
    simpa [openParen, closeParen] using hnames
  have hafter : Text.after? closeParen (ofTypes ps r).desc = some (ofResult r).desc :=
    Text.after?_append hbefore _
  rw [returnType, show (ofMethod (ofTypes ps r).desc).desc = (ofTypes ps r).desc from rfl, hafter]
  exact ofDescriptor_ofResult r

theorem callSize_ofTypes (ps : List FieldType) (r : Option FieldType) :
    callSize (ofTypes ps r).desc =
      .ok ⟨1 + totalSize (ps.map type), (ofResult r).size⟩ := by
  have hcount (ps : List FieldType) (n : Nat) :
      countSlots (ps.flatMap FieldType.desc ++ closeParen :: (ofResult r).desc) n =
        .ok ⟨n + totalSize (ps.map type), (ofResult r).size⟩ := by
    induction ps generalizing n with
    | nil =>
      rw [flatMap_nil, nil_append, countSlots, if_pos rfl, resultSize_ofResult]
      rfl
    | cons p ps ih =>
      rw [flatMap_cons, append_assoc, p.countSlots_desc, ih, map_cons, totalSize,
        Nat.add_assoc]
  exact hcount ps 1

end MethodType

/-! ## The frame that a method begins with -/

namespace SlotType

theorem isWide_mk {dims : Nat} {b : SlotBase} :
    (⟨dims, b⟩ : SlotType).isWide = true ↔ dims = 0 ∧ (b = .basic 4 ∨ b = .basic 3) := by
  simp [isWide, long, double, and_or_left]

theorem length_slots (t : SlotType) : t.slots.length = if t.isWide then 2 else 1 := by
  unfold slots
  split <;> rfl

end SlotType

namespace SessionM

theorem exists_ends_objectType_any (s : Pool × Session) (name : Text) :
    ∃ i s', Ends (objectType name) s (.object i) s' := by
  obtain ⟨s', hplace, -⟩ := exists_ends_place s (.named name)
  exact ⟨_, s', ends_bind.2 ⟨_, s', hplace, ends_pure.2 ⟨rfl, rfl⟩⟩⟩

end SessionM

theorem ElementType.exists_ends_slot (e : ElementType) (s : Pool × Session) :
    ∃ b s', Ends e.slot s ⟨0, b⟩ s' ∧ ((b = .basic 4 ∨ b = .basic 3) ↔ e.isWide) := by
  cases e with
  | object name hends =>
    obtain ⟨i, s', hend⟩ := SessionM.exists_ends_objectType_any s name
    exact ⟨.object i, s', hend, by simp [isWide]⟩
  | _ => exact ⟨_, s, ends_pure.2 ⟨rfl, rfl⟩, by simp [isWide]⟩

namespace FieldType

theorem exists_ends_ofField (t : FieldType) (s : Pool × Session) :
    ∃ r s', Ends (ofField t.desc) s r s' ∧
      r.slots.length = t.type.size + if t.Wraps then 1 else 0 := by
  simp only [length_slots, size_type, Wraps]
  obtain ⟨dims, element⟩ := t
  cases dims with
  | succ n =>
    obtain ⟨b, s', hend, hwide⟩ := element.exists_ends_slot s
    refine ⟨array (n + 1) ⟨0, b⟩, s', ?_, ?_⟩
    · rw [ofField_array]
      exact ends_bind.2 ⟨_, s', hend, ends_pure.2 ⟨rfl, rfl⟩⟩
    · have hslots : (array (n + 1) ⟨0, b⟩).isWide = true ↔ (n + 1) % 16 = 0 ∧ element.isWide := by
        rw [← hwide, array, addDims, isWide_mk, Nat.zero_add]
      simp only [hslots, Nat.succ_ne_zero, false_and, if_false, ne_eq, not_false_eq_true, true_and]
      split <;> rfl
  | zero =>
    cases element with
    | object name hends =>
      obtain ⟨i, s', hend⟩ := SessionM.exists_ends_objectType_any s name
      refine ⟨.object i, s', ?_, ?_⟩
      · have hslice : Text.slice (desc ⟨0, .object name hends⟩) 1
            ((desc ⟨0, .object name hends⟩).length - 1) = .ok name := slice_object [] name
        exact ends_bind.2 ⟨name, s, ends_lift.2 ⟨ends_checked.2 ⟨hslice, rfl⟩, rfl⟩, hend⟩
      · simp [object, isWide, long, double, ElementType.isWide]
    | _ => exact ⟨_, s, ends_pure.2 ⟨rfl, rfl⟩, rfl⟩

theorem ofDescriptor_eq_ofField (t : FieldType) :
    SlotType.ofDescriptor t.desc = SlotType.ofField t.desc := by
  obtain ⟨dims, element⟩ := t
  cases dims with
  | zero => cases element <;> rfl
  | succ n => rfl

end FieldType

namespace SlotType

/-- Parameters take the slots that their types say, and one more for each array that wraps. -/
theorem exists_ends_ofParameters (ps : List FieldType) (s : Pool × Session) :
    ∃ ts s', Ends (ofParameters (ps.map type)) s ts s' ∧
      (ts.flatMap slots).length = totalSize (ps.map type) + ps.countP (·.Wraps) := by
  induction ps generalizing s with
  | nil => exact ⟨[], s, ends_pure.2 ⟨rfl, rfl⟩, rfl⟩
  | cons p ps ih =>
    obtain ⟨t, s₁, ht, hlength⟩ := p.exists_ends_ofField s
    obtain ⟨ts, s₂, hts, hlengths⟩ := ih s₁
    rw [← p.ofDescriptor_eq_ofField] at ht
    refine ⟨t :: ts, s₂, ends_bind.2 ⟨t, s₁, ht, ends_bind.2 ⟨ts, s₂, hts, ends_pure.2 ⟨rfl, rfl⟩⟩⟩,
      ?_⟩
    simp only [flatMap_cons, length_append, map_cons, totalSize, countP_cons, hlength,
      hlengths, decide_eq_true_eq]
    omega

theorem exists_ends_receiver (isConstructor : Bool) (s : Pool × Session) :
    ∃ t s', Ends (receiver isConstructor) s t s' ∧ t.slots.length = 1 := by
  unfold receiver
  cases isConstructor with
  | true => exact ⟨_, s, ends_pure.2 ⟨rfl, rfl⟩, rfl⟩
  | false =>
    obtain ⟨i, s', hend⟩ := SessionM.exists_ends_objectType_any s s.2.thisName
    refine ⟨.object i, s', ends_get_bind.2 hend, ?_⟩
    simp [length_slots, isWide, object, long, double]

end SlotType

namespace MethodM

variable {ps : List FieldType} {r : Option FieldType} {u v : Method.State}

theorem exists_ends_entryTypes (hdesc : u.2.desc = (MethodType.ofTypes ps r).desc) :
    ∃ ts v, Ends entryTypes u ts v ∧ (ts.flatMap slots).length + (if u.2.isStatic then 1 else 0) =
      1 + totalSize (ps.map FieldType.type) + ps.countP (·.Wraps) := by
  have hparameters (w : Method.State) (this : List SlotType) : ∃ ts v,
      Ends (do return this ++ (← ofParameters (← argumentTypes u.2.desc)) : MethodM (List SlotType))
        w (this ++ ts) v ∧
      (ts.flatMap slots).length = totalSize (ps.map FieldType.type) + ps.countP (·.Wraps) := by
    obtain ⟨ts, s, hend, hlength⟩ := exists_ends_ofParameters ps w.1
    refine ⟨ts, (s, w.2), ?_, hlength⟩
    rw [hdesc, MethodType.argumentTypes_ofTypes]
    exact ends_bind.2 ⟨_, w, ends_checked.2 ⟨rfl, rfl⟩,
      ends_bind.2 ⟨ts, (s, w.2), ends_lift.2 ⟨hend, rfl⟩, ends_pure.2 ⟨rfl, rfl⟩⟩⟩
  unfold entryTypes
  simp only [ends_get_bind]
  split
  next hstatic =>
    obtain ⟨ts, v, hend, hlength⟩ := hparameters u []
    refine ⟨_, v, hend, ?_⟩
    simp only [nil_append]
    omega
  next hstatic =>
    obtain ⟨t, s, ht, hone⟩ := exists_ends_receiver u.2.isConstructor u.1
    obtain ⟨ts, v, hend, hlength⟩ := hparameters (s, u.2) [t]
    refine ⟨_, v, ends_bind.2 ⟨t, (s, u.2), ends_lift.2 ⟨ht, rfl⟩, hend⟩, ?_⟩
    simp only [cons_append, nil_append, flatMap_cons, length_append]
    omega

end MethodM

/-! ## The number of local variables -/

namespace Method

def SameLocals (u v : State) : Prop := v.2.maxLocals = u.2.maxLocals

instance : Steps SameLocals where
  refl _ := rfl
  trans h h' := h'.trans h

end Method

namespace MethodM

open Method

variable {u v : State}

instance sameLocals_lift {α : Type} {n : Type → Type} [MonadLiftT n SessionM] {x : n α} :
    Keeps SameLocals (liftM x : MethodM α) := by
  refine ⟨fun u a v h => ?_⟩
  rw [SameLocals, h.lift.2]

instance sameLocals_modify (code : Method → Buffer) (hasPending : Method → Bool)
    (currentBlock lastBlock : Method → Option LabelId) (height peak : Method → Int) :
    Keeps SameLocals (modify fun m =>
      { m with
        code := code m, hasPending := hasPending m, currentBlock := currentBlock m
        lastBlock := lastBlock m, height := height m, peak := peak m } : MethodM PUnit) := by
  refine ⟨fun u _ v h => ?_⟩
  rw [SameLocals, ← h.modify]

instance sameLocals_modifyGet (code : Method → Buffer) :
    Keeps SameLocals (modifyGet fun m => (m.code, { m with code := code m }) : MethodM Buffer) := by
  refine ⟨fun u _ v h => ?_⟩
  rw [SameLocals, ← (ends_modifyGet.1 h).2]

instance sameLocals_placeLabel (l : LabelId) : Keeps SameLocals (placeLabel l) := by
  have hresolve : Keeps SameLocals (resolveLabel l) := by
    unfold resolveLabel codeSize
    infer_instance
  have hchain (position : Nat) : Keeps SameLocals (chainBlock l position) := by
    refine keeps_then fun m => ?_
    split <;> infer_instance
  refine hresolve.bind fun _ => keeps_then fun m => ?_
  split
  · infer_instance
  · refine keeps_then fun m => ?_
    dsimp only
    split <;> split <;> infer_instance
  · refine keeps_then fun b => keeps_then fun m => ?_
    split <;> infer_instance
  · refine keeps_then fun m => ?_
    split
    · infer_instance
    · refine keeps_then fun b => ?_
      split <;> infer_instance

/-- A method begins with as many local variables as its descriptor has slots for the arguments. -/
theorem maxLocals_openCode {size : CallSize} (hsize : callSize u.2.desc = .ok size)
    (hcompute : u.2.compute ≠ .nothing) (e : Ends openCode u () v) :
    v.2.maxLocals = if u.2.isStatic then (size.arguments : Int) - 1 else size.arguments := by
  replace e := ends_get_bind.1 e
  rw [if_neg hcompute] at e
  obtain ⟨size', w, hsize', e⟩ := e.bind
  obtain ⟨hok, rfl⟩ := ends_checked.1 hsize'
  obtain rfl := Except.ok.inj (hsize.symm.trans hok)
  obtain ⟨l, w₁, h₁, e⟩ := e.bind
  obtain ⟨_, w₂, h₂, e⟩ := e.bind
  obtain ⟨_, w₃, h₃, e⟩ := e.bind
  have hplaced : v.2.maxLocals = w₃.2.maxLocals := e.keeps (R := SameLocals)
  rw [hplaced, ← h₃.modify]

end MethodM

namespace MethodType

variable {ps : List FieldType} {r : Option FieldType}

theorem desc_ofTypes (ps : List FieldType) (r : Option FieldType) :
    (ofTypes ps r).desc =
      openParen :: ((ps.map type).flatMap JavaType.desc ++ closeParen :: (ofResult r).desc) := by
  rw [flatMap_map]
  rfl

theorem popDescribed_ofTypes (ps : List FieldType) (r : Option FieldType) :
    FrameM.popDescribed (ofTypes ps r).desc = FrameM.popMany (totalSize (ps.map type)) := by
  have hpop : FrameM.popDescribed (ofTypes ps r).desc =
      (do FrameM.popMany ((← callSize (ofTypes ps r).desc).arguments - 1)) := rfl
  rw [hpop, callSize_ofTypes]
  exact congrArg FrameM.popMany (by push_cast; omega)

/-- The readers of a descriptor agree with its grammar.  The parameters and the result are found,
and together they spell the descriptor.  The slots of a call are those of the parameters, with one
for the receiver; a call takes them from the stack, and a method begins with as many local
variables.  The frame that it begins with has one slot more for each parameter that is an array
which wraps, and it names the parameters if none has more than fifteen dimensions. -/
theorem readers_agree (hnames : ∀ p ∈ ps, closeParen ∉ p.desc) {u : Method.State}
    (hdesc : u.2.desc = (ofTypes ps r).desc) :
    argumentTypes u.2.desc = .ok (ps.map type) ∧
    (ofMethod u.2.desc).returnType = ofResult r ∧
    u.2.desc =
      openParen :: ((ps.map type).flatMap JavaType.desc ++ closeParen :: (ofResult r).desc) ∧
    callSize u.2.desc = .ok ⟨1 + totalSize (ps.map type), (ofResult r).size⟩ ∧
    FrameM.popDescribed u.2.desc = FrameM.popMany (totalSize (ps.map type)) ∧
    (∀ v, u.2.compute ≠ .nothing → Ends MethodM.openCode u () v →
      v.2.maxLocals + (if u.2.isStatic then 1 else 0) = 1 + totalSize (ps.map type)) ∧
    u.2.entryItems u.1.2.thisName =
      .ok (u.2.receiverItems u.1.2.thisName ++ ps.map item) ∧
    ∃ ts v, Ends MethodM.entryTypes u ts v ∧
      (ts.flatMap slots).length + (if u.2.isStatic then 1 else 0) =
        1 + totalSize (ps.map type) + ps.countP (·.Wraps) ∧
      ((∀ p ∈ ps, p.dims ≤ 15) → u.1.2.types.Wf → SlotType.Names v.1.2.types ts
        (u.2.receiverItems u.1.2.thisName ++ ps.map item)) ∧
      ∀ f n w, Ends (MethodM.openFrame f n) u () w → ∃ frame k, w.1.2.frames[f]? = some frame ∧
        frame.locals.toList = ts.flatMap slots ++ replicate k top := by
  obtain ⟨ts, v, hentry, hlength⟩ := MethodM.exists_ends_entryTypes hdesc
  refine ⟨?_, ?_, ?_, ?_, ?_, fun w hcompute hopen => ?_, Method.entryItems_eq hdesc _, ts, v,
    hentry, hlength, fun hdims hwf => MethodM.names_entryTypes (t := ofTypes ps r) hdims hdesc hwf
    hentry,
    fun f n w hopen => ?_⟩
  · rw [hdesc, argumentTypes_ofTypes]
  · rw [hdesc, returnType_ofTypes hnames]
  · rw [hdesc, desc_ofTypes]
  · rw [hdesc, callSize_ofTypes]
  · rw [hdesc, popDescribed_ofTypes]
  · have hsize : callSize u.2.desc = .ok ⟨1 + totalSize (ps.map type), (ofResult r).size⟩ := by
      rw [hdesc, callSize_ofTypes]
    rw [MethodM.maxLocals_openCode hsize hcompute hopen]
    dsimp only
    split <;> omega
  · obtain ⟨ts', w', frame, k, hentry', -, hframe, -, hlocals⟩ := MethodM.ends_openFrame hopen
    obtain ⟨rfl, -⟩ := hentry.unique hentry'
    exact ⟨frame, k, hframe, hlocals⟩

def wideSample : Method where
  access := Access.constructor
  desc := [40, 74, 91, 76, 65, 59, 41, 86]

theorem readers_agree_sample : closeParen ∉ (⟨1, .object [65] (by decide)⟩ : FieldType).desc ∧
    callSize wideSample.desc = .ok ⟨4, 0⟩ ∧
    ∃ ts v, Ends MethodM.entryTypes (({}, {}), wideSample) ts v ∧
      (ts.flatMap slots).length = 4 := by
  have hnames : ∀ p ∈ [⟨0, .long⟩, ⟨1, .object [65] (by decide)⟩],
      closeParen ∉ FieldType.desc p := by
    simp [FieldType.desc, ElementType.desc, ElementType.letter, closeParen, bracket, classMark,
      semicolon]
  obtain ⟨-, -, -, hsize, -, -, -, ts, v, hentry, hlength, -⟩ :=
    readers_agree (r := none) (u := (({}, {}), wideSample)) hnames rfl
  exact ⟨hnames _ (by simp), hsize, ts, v, hentry, hlength⟩

end MethodType

end ClassAssembler
