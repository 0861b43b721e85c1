import ClassAssembler.Proofs.Steady
import Mathlib.Tactic.IntervalCases

/-!
# Types in frames

A frame names types in three ways: a described method begins with the types of its descriptor, a
frame under construction holds slot types, and a stack map holds items of bytes.  `FieldType` is the
grammar of descriptors; reading the descriptor of a method gives back its parameters
(`Method.entryItems_eq`), and the slot types that the method begins with name the same types
(`MethodM.names_entryTypes`) as long as no array has more than fifteen dimensions.
-/

namespace ClassAssembler

open JavaType List Option

/-! ## Descriptors -/

inductive ElementType where
  | boolean
  | char
  | byte
  | short
  | int
  | float
  | long
  | double
  /-- A class; its name ends at the first semicolon. -/
  | object (name : Text) (ends : semicolon ∉ name)

namespace ElementType

def letter : ElementType → UInt8
  | boolean => 90
  | char => 67
  | byte => 66
  | short => 83
  | int => 73
  | float => 70
  | long => 74
  | double => 68
  | object .. => classMark

def desc : ElementType → Text
  | object name _ => classMark :: (name ++ [semicolon])
  | e => [e.letter]

def sort : ElementType → TypeSort
  | boolean => .boolean
  | char => .char
  | byte => .byte
  | short => .short
  | int => .int
  | float => .float
  | long => .long
  | double => .double
  | object .. => .object

theorem exists_desc (e : ElementType) : ∃ r, e.desc = e.letter :: r := by
  cases e <;> exact ⟨_, rfl⟩

theorem letter_ne_bracket (e : ElementType) : e.letter ≠ bracket := by
  cases e <;> simp [letter, bracket, classMark]

theorem letter_ne_closeParen (e : ElementType) : e.letter ≠ closeParen := by
  cases e <;> simp [letter, closeParen, classMark]

end ElementType

/-- The type of a value: an element type below some array dimensions. -/
structure FieldType where
  dims : Nat
  element : ElementType

namespace FieldType

def desc (t : FieldType) : Text := List.replicate t.dims bracket ++ t.element.desc

def item (t : FieldType) : FrameItem Int :=
  if t.dims = 0 then
    match t.element with
    | .boolean | .char | .byte | .short | .int => .number 1
    | .float => .number 2
    | .long => .number 4
    | .double => .number 3
    | .object name _ => .name name
  else .name t.desc

end FieldType

theorem Text.after?_append {b : UInt8} {t : Text} (h : b ∉ t) (rest : Text) :
    Text.after? b (t ++ b :: rest) = some rest := by
  induction t with
  | nil => simp [Text.after?]
  | cons c t ih =>
    obtain ⟨hc, ht⟩ := not_or.1 (mt mem_cons.2 h)
    rw [cons_append, Text.after?, if_neg (Ne.symm hc), ih ht]

namespace FieldType

theorem takeWhile_brackets {c : UInt8} (hc : c ≠ bracket) (n : Nat) (r : Text) :
    (List.replicate n bracket ++ c :: r).takeWhile (· = bracket) = List.replicate n bracket := by
  induction n with
  | zero => simp [hc]
  | succ n ih => simpa [replicate_succ] using ih

theorem dropWhile_brackets {c : UInt8} (hc : c ≠ bracket) (n : Nat) (r : Text) :
    (List.replicate n bracket ++ c :: r).dropWhile (· = bracket) = c :: r := by
  induction n with
  | zero => simp [hc]
  | succ n ih => simpa [replicate_succ] using ih

theorem splitField_desc (t : FieldType) (rest : Text) :
    splitField (t.desc ++ rest) = .ok (t.desc, rest) := by
  obtain ⟨r, hr⟩ := t.element.exists_desc
  have hne := t.element.letter_ne_bracket
  have hdesc : t.desc ++ rest =
      List.replicate t.dims bracket ++ t.element.letter :: (r ++ rest) := by
    rw [desc, hr, append_assoc, cons_append]
  rw [splitField, hdesc, takeWhile_brackets hne, dropWhile_brackets hne, ← hdesc]
  obtain ⟨dims, element⟩ := t
  cases element with
  | object name hends =>
    obtain rfl : name ++ [semicolon] = r := (List.cons.inj hr).2
    have hafter : Text.after? semicolon (name ++ [semicolon] ++ rest) = some rest := by
      simpa using Text.after?_append hends rest
    simp only [ElementType.letter, if_pos, hafter]
    simp
  | _ =>
    obtain rfl : [] = r := (List.cons.inj hr).2
    rfl

def sort (t : FieldType) : TypeSort := if t.dims = 0 then t.element.sort else .array

theorem ofDescriptor_desc (t : FieldType) : ofDescriptor t.desc = ⟨t.sort, t.desc⟩ := by
  obtain ⟨dims, element⟩ := t
  cases dims with
  | zero => cases element <;> rfl
  | succ n => rfl

theorem slice_object (brackets name : Text) :
    Text.slice (brackets ++ classMark :: (name ++ [semicolon])) (brackets.length + 1)
      ((brackets ++ classMark :: (name ++ [semicolon])).length - 1) = .ok name := by
  have hlength : (brackets ++ classMark :: (name ++ [semicolon])).length =
      brackets.length + name.length + 2 := by
    simp only [length_append, length_cons, length_nil]
    omega
  rw [Text.slice, if_pos (by omega)]
  have hdrop : ((brackets.length : Int) + 1).toNat = brackets.length + 1 := by omega
  have htake : (((brackets ++ classMark :: (name ++ [semicolon])).length : Int) - 1 -
      ((brackets.length : Int) + 1)).toNat = name.length := by omega
  rw [hdrop, htake, drop_append, drop_eq_nil_of_le (Nat.le_succ _)]
  simp

end FieldType

/-- The type of a method: its parameters, and what stands behind them. -/
structure MethodType where
  parameters : List FieldType
  result : Text

namespace MethodType

def desc (t : MethodType) : Text :=
  openParen :: (t.parameters.flatMap FieldType.desc ++ closeParen :: t.result)

theorem argumentTypes_desc (t : MethodType) :
    argumentTypes t.desc = .ok (t.parameters.map fun p => ofDescriptor p.desc) := by
  show JavaType.parameters (t.parameters.flatMap FieldType.desc ++ closeParen :: t.result) = _
  induction t.parameters with
  | nil => simp [JavaType.parameters]
  | cons p ps ih =>
    have hsplit := p.splitField_desc (ps.flatMap FieldType.desc ++ closeParen :: t.result)
    obtain ⟨b, r, hb, hdesc⟩ : ∃ b r, b ≠ closeParen ∧ p.desc = b :: r := by
      obtain ⟨dims, element⟩ := p
      cases dims with
      | zero =>
        obtain ⟨r, hr⟩ := element.exists_desc
        exact ⟨_, r, element.letter_ne_closeParen, hr⟩
      | succ n => exact ⟨bracket, _, by decide, rfl⟩
    rw [hdesc, cons_append] at hsplit
    rw [flatMap_cons, append_assoc, hdesc, cons_append, JavaType.parameters, if_neg hb]
    split
    next e he => cases hsplit.symm.trans he
    next f rest he =>
      cases hsplit.symm.trans he
      rw [ih, map_cons, hdesc]
      rfl

end MethodType

/-! ## The frame that a method begins with -/

namespace Method

def receiverItems (m : Method) (thisName : Text) : List (FrameItem Int) :=
  if m.isStatic then [] else if m.isConstructor then [.number 6] else [.name thisName]

def entryItem (t : JavaType) : Checked (FrameItem Int) :=
  match t.sort with
  | .boolean | .char | .byte | .short | .int => return .number 1
  | .float => return .number 2
  | .long => return .number 4
  | .double => return .number 3
  | _ => return .name (← t.internalName)

theorem entryItem_desc (p : FieldType) : entryItem (ofDescriptor p.desc) = .ok p.item := by
  rw [p.ofDescriptor_desc]
  obtain ⟨dims, element⟩ := p
  cases dims with
  | succ n => rfl
  | zero =>
    cases element with
    | object name hends =>
      have hname : internalName ⟨.object, classMark :: (name ++ [semicolon])⟩ = .ok name :=
        FieldType.slice_object [] name
      exact congrArg (fun r : Checked Text => (return .name (← r) : Checked (FrameItem Int))) hname
    | _ => rfl

/-- The items of the first frame are the receiver and the parameters of the descriptor. -/
theorem entryItems_eq {m : Method} {t : MethodType} (h : m.desc = t.desc) (thisName : Text) :
    m.entryItems thisName = .ok (m.receiverItems thisName ++ t.parameters.map FieldType.item) := by
  have hitems (ps : List FieldType) : (ps.map fun p => ofDescriptor p.desc).mapM entryItem =
      .ok (ps.map FieldType.item) := by
    induction ps with
    | nil => rfl
    | cons p ps ih =>
      rw [map_cons, mapM_cons, entryItem_desc, ih]
      rfl
  have hentry : m.entryItems thisName = do
      let ts ← argumentTypes m.desc
      return m.receiverItems thisName ++ (← ts.mapM entryItem) := rfl
  rw [hentry, h, t.argumentTypes_desc]
  show (do return m.receiverItems thisName ++ (← List.mapM entryItem _) : Checked _) = _
  rw [hitems]
  rfl

end Method

/-! ## Slot types -/

namespace SlotType

def letter? : Nat → Option UInt8
  | 1 => some 73
  | 2 => some 70
  | 3 => some 68
  | 4 => some 74
  | 9 => some 90
  | 10 => some 66
  | 11 => some 67
  | 12 => some 83
  | _ => none

/-- The type as an element of a frame, if it is one that a stack map can hold. -/
def item? (types : TypeTable) (t : SlotType) : Option (FrameItem Int) :=
  if t.dims = 0 then
    match t.base with
    | .basic n => if n ≤ 6 then some (.number n) else none
    | .object i => (types.at? i).map fun e => .name e.name
    | .fresh i => (types.at? i).bind fun e =>
      if 0 ≤ e.offset ∧ e.offset ≤ 65535 then some (.created e.offset) else none
    | _ => none
  else
    match t.base with
    | .basic n => (letter? n).map fun l => .name (List.replicate t.dims bracket ++ [l])
    | .object i => (types.at? i).map fun e =>
      .name (List.replicate t.dims bracket ++ [classMark] ++ e.name ++ [semicolon])
    | _ => none

theorem item?_mono {types types' : TypeTable} (h : types.Grows types') {t : SlotType}
    {x : FrameItem Int} (hx : t.item? types = some x) : t.item? types' = some x := by
  unfold item? at hx ⊢
  split at hx
  next hdims =>
    rw [if_pos hdims]
    split at hx
    · exact hx
    · obtain ⟨e, he, rfl⟩ := map_eq_some_iff.1 hx
      rw [h.at? he]
      rfl
    · obtain ⟨e, he, hx⟩ := bind_eq_some_iff.1 hx
      rw [h.at? he]
      exact hx
    · cases hx
  next hdims =>
    rw [if_neg hdims]
    split at hx
    · exact hx
    · obtain ⟨e, he, rfl⟩ := map_eq_some_iff.1 hx
      rw [h.at? he]
      rfl
    · cases hx

end SlotType

namespace SessionM

theorem ends_place {e : TableType} {i : Nat} {s t : Pool × Session} (hwf : s.2.types.Wf)
    (h : Ends (place e) s i t) : t.2.types.at? i = some e := by
  obtain ⟨r, w, hr, h⟩ := h.bind
  obtain ⟨rfl, rfl⟩ := ends_modifyGet.1 hr
  dsimp only at h
  obtain ⟨v, hfail, h⟩ := ends_when.1 h
  obtain ⟨rfl, rfl⟩ := h.pure
  have hsession : v.2 = { s.2 with types := (s.2.types.add e).1 } := by
    split at hfail
    · exact hfail.lift.2.symm
    · exact congrArg Prod.snd hfail.pure.2.symm
  rw [hsession]
  exact (s.2.types.grows_add e).2 hwf

theorem ends_objectType {name : Text} {r : SlotType} {s t : Pool × Session} (hwf : s.2.types.Wf)
    (h : Ends (objectType name) s r t) :
    ∃ i, r = .object i ∧ t.2.types.at? i = some (.named name) := by
  obtain ⟨i, w, hi, h⟩ := h.bind
  obtain ⟨rfl, rfl⟩ := h.pure
  exact ⟨i, rfl, ends_place hwf hi⟩

end SessionM

def ElementType.slot : ElementType → SessionM SlotType
  | boolean => return .boolean
  | char => return .char
  | byte => return .byte
  | short => return .short
  | int => return .integer
  | float => return .float
  | long => return .long
  | double => return .double
  | object name _ => SessionM.objectType name

namespace FieldType

variable {s s' : Pool × Session}

theorem ends_slice_object (brackets : Text) {name name' : Text} {k : Int}
    (hk : k = brackets.length + 1)
    (h : Ends (liftM (Text.slice (brackets ++ classMark :: (name ++ [semicolon])) k
      ((brackets ++ classMark :: (name ++ [semicolon])).length - 1)) : SessionM Text) s name' s') :
    name = name' ∧ s = s' := by
  rw [hk, slice_object] at h
  obtain ⟨h, h'⟩ := h.lift
  obtain ⟨hname, hp⟩ := ends_checked.1 h
  exact ⟨Except.ok.inj hname, Prod.ext hp h'⟩

theorem ofField_array (n : Nat) (e : ElementType) :
    SlotType.ofField (⟨n + 1, e⟩ : FieldType).desc =
    do return SlotType.array (n + 1) (← e.slot) := by
  have hne := e.letter_ne_bracket
  obtain ⟨rest, hdesc⟩ := e.exists_desc
  have htail : List.replicate n bracket ++ e.desc =
      List.replicate n bracket ++ e.letter :: rest := by
    rw [hdesc]
  unfold desc
  dsimp only
  rw [replicate_succ, cons_append, SlotType.ofField]
  dsimp only
  rw [htail, takeWhile_brackets hne, dropWhile_brackets hne, length_replicate]
  cases e with
  | object name hends =>
    obtain rfl : name ++ [semicolon] = rest := (List.cons.inj hdesc).2
    have hslice := slice_object (List.replicate (n + 1) bracket) name
    rw [length_replicate, replicate_succ, cons_append] at hslice
    dsimp only [ElementType.letter]
    show (do
      return SlotType.array (n + 1)
        (← SessionM.objectType (← liftM (Text.slice _ _ _ : Checked Text)))) = _
    rw [hslice]
    rfl
  | _ => rfl

theorem array_of_le {n : Nat} (hn : n + 1 ≤ 15) (b : SlotBase) :
    SlotType.array (n + 1) ⟨0, b⟩ = ⟨n + 1, b⟩ := by
  have hmod : (0 + (n + 1)) % 16 = n + 1 := by omega
  exact congrArg (SlotType.mk · b) hmod

theorem item_ofField {t : FieldType} (ht : t.dims ≤ 15) {r : SlotType} (hwf : s.2.types.Wf)
    (e : Ends (SlotType.ofField t.desc) s r s') : r.item? s'.2.types = some t.item := by
  obtain ⟨dims, element⟩ := t
  cases dims with
  | zero =>
    cases element with
    | object name hends =>
      obtain ⟨name', w, hname, e⟩ := e.bind
      obtain ⟨rfl, rfl⟩ := ends_slice_object [] (by simp) hname
      obtain ⟨i, rfl, hat⟩ := SessionM.ends_objectType hwf e
      simp [SlotType.item?, SlotType.object, hat, item, TableType.name]
    | _ =>
      obtain ⟨rfl, -⟩ := e.pure
      rfl
  | succ n =>
    rw [ofField_array] at e
    obtain ⟨r', w, hr', e⟩ := e.bind
    obtain ⟨rfl, rfl⟩ := e.pure
    cases element with
    | object name hends =>
      obtain ⟨i, rfl, hat⟩ := SessionM.ends_objectType hwf hr'
      rw [SlotType.object, array_of_le ht]
      simp [SlotType.item?, hat, item, desc, ElementType.desc, TableType.name]
    | _ =>
      obtain ⟨rfl, -⟩ := hr'.pure
      exact congrArg (SlotType.item? w.2.types) (array_of_le ht _)

theorem item_ofName {name : Text}
    (hname : name.head? = some bracket → ∃ p : FieldType, p.dims ≤ 15 ∧ p.desc = name)
    {r : SlotType} (hwf : s.2.types.Wf) (e : Ends (SlotType.ofName name) s r s') :
    r.item? s'.2.types = some (.name name) := by
  unfold SlotType.ofName JavaType.ofName at e
  split at e
  next hhead =>
    obtain ⟨⟨dims, element⟩, hdims, rfl⟩ := hname hhead
    cases dims with
    | zero =>
      obtain ⟨rest, hrest⟩ := element.exists_desc
      rw [desc, hrest] at hhead
      exact absurd (some.inj hhead) element.letter_ne_bracket
    | succ n => exact item_ofField hdims hwf e
  next =>
    obtain ⟨name', w, hslice, e⟩ := e.bind
    obtain ⟨rfl, rfl⟩ := ends_slice_object [] (by simp) hslice
    obtain ⟨i, rfl, hat⟩ := SessionM.ends_objectType hwf e
    simp [SlotType.item?, SlotType.object, hat, TableType.name]

end FieldType

def SlotType.Names (types : TypeTable) (ts : List SlotType) (xs : List (FrameItem Int)) : Prop :=
  Forall₂ (fun t x => t.item? types = some x) ts xs

namespace SlotType

theorem Names.mono {types types' : TypeTable} (h : types.Grows types') {ts : List SlotType}
    {xs : List (FrameItem Int)} (hts : Names types ts xs) : Names types' ts xs :=
  Forall₂.imp (fun _ _ => item?_mono h) hts

theorem names_ofParameters {ps : List FieldType} (hps : ∀ p ∈ ps, p.dims ≤ 15)
    {ts : List SlotType} {s s' : Pool × Session} (hwf : s.2.types.Wf)
    (e : Ends (ofParameters (ps.map fun p => JavaType.ofDescriptor p.desc)) s ts s') :
    Names s'.2.types ts (ps.map FieldType.item) := by
  induction ps generalizing s ts with
  | nil =>
    obtain ⟨rfl, -⟩ := e.pure
    exact .nil
  | cons p ps ih =>
    obtain ⟨hp, hps⟩ := forall_mem_cons.1 hps
    obtain ⟨t, s₁, ht, e⟩ := e.bind
    obtain ⟨ts', s₂, hts', e⟩ := e.bind
    obtain ⟨rfl, rfl⟩ := e.pure
    have hfield : Ends (ofField p.desc) s t s₁ := by
      rw [show (JavaType.ofDescriptor p.desc).desc = p.desc by rw [p.ofDescriptor_desc]] at ht
      obtain ⟨dims, element⟩ := p
      cases dims with
      | zero => cases element <;> exact ht
      | succ n => exact ht
    have hsame : Quiet s s₁ := hfield.keeps
    have hsame' : Quiet s₁ s₂ := hts'.keeps
    exact .cons (item?_mono hsame'.types (FieldType.item_ofField hp hwf hfield))
      (ih hps (hsame.types.wf hwf) hts')

end SlotType

namespace MethodM

theorem names_receiver {m : Method} {s s' : Pool × Session} {t : SlotType} (hm : m.isStatic = false)
    (hwf : s.2.types.Wf) (e : Ends (SlotType.receiver m.isConstructor) s t s') :
    SlotType.Names s'.2.types [t] (m.receiverItems s.2.thisName) := by
  unfold SlotType.receiver at e
  rw [Method.receiverItems, hm, if_neg Bool.false_ne_true]
  split at e
  next hinit =>
    obtain ⟨rfl, -⟩ := e.pure
    rw [if_pos hinit]
    exact .cons rfl .nil
  next hinit =>
    replace e := ends_get_bind.1 e
    obtain ⟨i, rfl, hat⟩ := SessionM.ends_objectType hwf e
    rw [if_neg hinit]
    exact .cons (by simp [SlotType.item?, SlotType.object, hat, TableType.name]) .nil

/-- The slot types of the first frame name its items, up to fifteen dimensions. -/
theorem names_entryTypes {t : MethodType} (ht : ∀ p ∈ t.parameters, p.dims ≤ 15)
    {u v : Method.State} (hdesc : u.2.desc = t.desc) (hwf : u.1.2.types.Wf) {ts : List SlotType}
    (e : Ends entryTypes u ts v) :
    SlotType.Names v.1.2.types ts
      (u.2.receiverItems u.1.2.thisName ++ t.parameters.map FieldType.item) := by
  replace e := ends_get_bind.1 e
  have hrest {w : Method.State} {this : List SlotType} (hw : w.1.2.types.Wf)
      (hthis : SlotType.Names w.1.2.types this (u.2.receiverItems u.1.2.thisName))
      (e : Ends (do
        let params ← JavaType.argumentTypes u.2.desc
        return this ++ (← SlotType.ofParameters params) : MethodM (List SlotType)) w ts v) :
      SlotType.Names v.1.2.types ts
        (u.2.receiverItems u.1.2.thisName ++ t.parameters.map FieldType.item) := by
    obtain ⟨params, w₁, hparams, e⟩ := e.bind
    obtain ⟨rs, w₂, hrs, e⟩ := e.bind
    obtain ⟨rfl, rfl⟩ := e.pure
    rw [hdesc, t.argumentTypes_desc] at hparams
    obtain ⟨hok, rfl⟩ := ends_checked.1 hparams
    obtain rfl := Except.ok.inj hok
    obtain ⟨hrs, -⟩ := hrs.lift
    have hsame : Quiet w.1 w₂.1 := hrs.keeps
    exact rel_append (hthis.mono hsame.types) (SlotType.names_ofParameters ht hw hrs)
  dsimp only at e
  split at e
  next hstatic =>
    refine hrest hwf ?_ e
    rw [Method.receiverItems, if_pos hstatic]
    exact .nil
  next hstatic =>
    obtain ⟨this, w, hthis, e⟩ := e.bind
    obtain ⟨hthis, -⟩ := hthis.lift
    have hsame : Quiet u.1 w.1 := hthis.keeps
    exact hrest (hsame.types.wf hwf) (names_receiver (by simpa using hstatic) hwf hthis) e

end MethodM

/-! ## Items of stack maps -/

namespace MapItem

open Buffer

/-- An item of a stack map is the type that an element of a frame names. -/
inductive Stands (p : Pool) : MapItem → FrameItem Int → Prop
  | basic {n : Int} : 0 ≤ n → n ≤ 6 → Stands p (.basic n) (.number n)
  | object {i : Nat} {name : Text} : p.at? i = some (.classRef name) → i < 65536 →
      Stands p (.object i) (.name name)
  | fresh {offset : Int} : 0 ≤ offset → offset ≤ 65535 → Stands p (.fresh offset) (.created offset)

variable {p q : Pool}

theorem Stands.mono (h : p.Extends q) {i : MapItem} {x : FrameItem Int} (hx : i.Stands p x) :
    i.Stands q x := by
  cases hx with
  | basic hlow hhigh => exact .basic hlow hhigh
  | object hat hlt => exact .object (h.at? hat) hlt
  | fresh hlow hhigh => exact .fresh hlow hhigh

theorem run_short {v : Int} (hlow : 0 ≤ v) (hhigh : v ≤ 65535) (rest : List UInt8) :
    TableFrame.short.run (bytes16 v ++ rest) = .ok (v.toNat, rest) := by
  have hread := Buffer.read_bytes16 v.toNat
  rw [Int.toNat_of_nonneg hlow, Nat.mod_eq_of_lt (by omega)] at hread
  show Except.ok ((low8 (v / 256)).toNat * 256 + (low8 v).toNat, rest) = _
  rw [hread]

theorem Stands.run_item {i : MapItem} {x : FrameItem Int} (h : i.Stands p x) (rest : List UInt8) :
    (TableFrame.item p).run (i.bytes ++ rest) = .ok (x, rest) := by
  cases h with
  | @basic n hlow hhigh => interval_cases n <;> rfl
  | @object i name hat hlt =>
    have hshort := run_short (v := i) (by omega) (by omega) rest
    have hitem : (TableFrame.item p).run (bytes (.object i) ++ rest) =
        TableFrame.short.run (bytes16 i ++ rest) >>= fun r =>
          (do return .name (← p.fetch r.1).first : TableFrame.Reading (FrameItem Int)).run r.2 :=
            rfl
    have hfetch : p.fetch i = .ok (.classRef name) := by
      rw [Pool.fetch, hat]
      rfl
    rw [hitem, hshort]
    show (do return .name (← p.fetch i).first : TableFrame.Reading (FrameItem Int)).run rest = _
    rw [hfetch]
    rfl
  | @fresh offset hlow hhigh =>
    have hitem : (TableFrame.item p).run (bytes (.fresh offset) ++ rest) =
        TableFrame.short.run (bytes16 offset ++ rest) >>= fun r => .ok (.created r.1, r.2) := rfl
    rw [hitem, run_short hlow hhigh]
    show Except.ok (FrameItem.created (offset.toNat : Int), rest) = _
    rw [Int.toNat_of_nonneg hlow]

end MapItem

namespace SlotType

open MapItem

variable {counted : Prop} {s s' : Pool × Session} {types : TypeTable}

variable {i : Nat}

theorem ends_typeAt {e : TableType} (h : Ends (SessionM.typeAt i) s e s') :
    s.2.types.at? i = some e ∧ s = s' := by
  replace h := ends_get_bind.1 h
  split at h
  next e' he =>
    obtain ⟨rfl, rfl⟩ := h.pure
    exact ⟨he, rfl⟩
  next => exact absurd h ends_throw

theorem ends_className {name : Text} (htypes : s.2.types.Grows types)
    (h : Ends (className i) s name s') : (∃ e, types.at? i = some e ∧ e.name = name) ∧ s = s' := by
  obtain ⟨e, _, he, h⟩ := h.bind
  obtain ⟨hat, rfl⟩ := ends_typeAt he
  obtain ⟨rfl, rfl⟩ := h.pure
  exact ⟨⟨e, htypes.at? hat, rfl⟩, rfl⟩

theorem stands_classRef {name : Text} (hp : s.1.Wf { counted }) (hfail : s'.1.failure = none)
    (h : Ends (liftM (PoolM.classRef name) : SessionM Nat) s i s') :
    Stands s'.1 (.object i) (.name name) := by
  obtain ⟨h, -⟩ := h.lift
  obtain ⟨hreg, hat⟩ := PoolM.interns_classRef name _ _ _ hp h
  exact .object hat (hreg.wf.at?_lt hfail hat)

theorem elementLetter_eq {t : SlotType} {n : Nat} {l : UInt8} (hbase : t.base = .basic n)
    (hl : letter? n = some l) : t.elementLetter.toUInt8 = l := by
  unfold elementLetter
  rw [hbase]
  unfold letter? at hl
  split at hl <;> cases hl <;> rfl

theorem stands_toItem {t : SlotType} {i : MapItem} {x : FrameItem Int} (hp : s.1.Wf { counted })
    (hfail : s'.1.failure = none) (htypes : s.2.types.Grows types) (hx : t.item? types = some x)
    (e : Ends t.toItem s i s') : i.Stands s'.1 x := by
  unfold toItem at e
  unfold item? at hx
  split at hx
  next hdims =>
    rw [if_pos hdims] at e
    split at hx
    next n hbase =>
      split at hx
      next hn =>
        obtain rfl := some.inj hx
        rw [hbase] at e
        obtain ⟨rfl, -⟩ := e.pure
        have hvalue : (SlotBase.basic n).value = n := by
          simp only [SlotBase.value, SlotBase.bits]
          omega
        rw [hvalue]
        exact .basic (Int.natCast_nonneg n) (Int.ofNat_le.2 hn)
      next => cases hx
    next j hbase =>
      obtain ⟨d, hd, rfl⟩ := map_eq_some_iff.1 hx
      rw [hbase] at e
      obtain ⟨name, _, hname, e⟩ := e.bind
      obtain ⟨k, w, hk, e⟩ := e.bind
      obtain ⟨rfl, rfl⟩ := e.pure
      obtain ⟨⟨d', hd', rfl⟩, rfl⟩ := ends_className htypes hname
      obtain rfl := some.inj (hd.symm.trans hd')
      exact stands_classRef hp hfail hk
    next j hbase =>
      obtain ⟨d, hd, hx⟩ := bind_eq_some_iff.1 hx
      rw [hbase] at e
      obtain ⟨d', _, htype, e⟩ := e.bind
      obtain ⟨rfl, rfl⟩ := e.pure
      obtain ⟨hd', rfl⟩ := ends_typeAt htype
      obtain rfl := some.inj (hd.symm.trans (htypes.at? hd'))
      split at hx
      next hoffset =>
        obtain rfl := some.inj hx
        exact .fresh hoffset.1 hoffset.2
      next => cases hx
    next => cases hx
  next hdims =>
    rw [if_neg hdims] at e
    obtain ⟨desc, w, hdesc, e⟩ := e.bind
    obtain ⟨k, w', hk, e⟩ := e.bind
    obtain ⟨rfl, rfl⟩ := e.pure
    unfold arrayDescriptor at hdesc
    split at hx
    next n hbase =>
      obtain ⟨l, hl, rfl⟩ := map_eq_some_iff.1 hx
      rw [hbase] at hdesc
      obtain ⟨rfl, rfl⟩ := hdesc.pure
      rw [elementLetter_eq hbase hl] at hk
      exact stands_classRef hp hfail hk
    next j hbase =>
      obtain ⟨d, hd, rfl⟩ := map_eq_some_iff.1 hx
      rw [hbase] at hdesc
      obtain ⟨name, _, hname, hdesc⟩ := hdesc.bind
      obtain ⟨rfl, rfl⟩ := hdesc.pure
      obtain ⟨⟨d', hd', rfl⟩, rfl⟩ := ends_className htypes hname
      obtain rfl := some.inj (hd.symm.trans hd')
      exact stands_classRef hp hfail hk
    next => cases hx

theorem stands_toItems {ts : List SlotType} {is : List MapItem} {xs : List (FrameItem Int)}
    (hp : s.1.Wf { counted }) (hfail : s'.1.failure = none) (htypes : s'.2.types.Grows types)
    (hxs : Names types ts xs) (e : Ends (toItems ts) s is s') :
    Forall₂ (Stands s'.1) is xs := by
  induction hxs generalizing s is with
  | nil =>
    obtain ⟨rfl, -⟩ := e.pure
    exact .nil
  | @cons t x ts xs hx hxs ih =>
    obtain ⟨i, s₁, hi, e⟩ := e.bind
    obtain ⟨is', s₂, his', e⟩ := e.bind
    obtain ⟨rfl, rfl⟩ := e.pure
    have hsame : Quiet s s₁ := hi.keeps
    have hsame' : Quiet s₁ s₂ := his'.keeps
    obtain ⟨hp₁, hext⟩ := hsame.grows hp
    obtain ⟨hp₂, hext'⟩ := hsame'.grows hp₁
    have hgrows : s.2.types.Grows types :=
      Steps.trans hsame.types (Steps.trans hsame'.types htypes)
    exact .cons ((stands_toItem hp (hext'.no_failure hfail) hgrows hx hi).mono hext')
      (ih hp₁ his')

end SlotType

end ClassAssembler
