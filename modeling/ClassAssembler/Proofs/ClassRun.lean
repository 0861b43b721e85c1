import ClassAssembler.Source.Events
import ClassAssembler.Proofs.Listings
import ClassAssembler.Proofs.Passes

/-!
# Assembling the events of a class

The labels of a class are numbered one after another, so no two methods have one in common
(`Numbering.injective`).  While one method takes its events, the others stay as they are.  So what
is true of a method when its code ends is still true when all events of the class have been taken
(`CheckedClass.recorded_takenBy`).
-/

namespace ClassAssembler

open List MethodM

/-! ## Numbers of labels -/

namespace Numbering

variable {T : Type} [DecidableEq T] [Hashable T]

/-- Different labels have different numbers, which are less than the number of labels. -/
structure Proper (n : Numbering T) : Prop where
  lt_size : ∀ (a : T) l, n[a]? = some l → l < n.size
  injective : ∀ (a b : T) l, n[a]? = some l → n[b]? = some l → a = b

theorem proper_empty : Proper ({} : Numbering T) := ⟨by simp, by simp⟩

theorem getElem?_note (n : Numbering T) (t a : T) :
    (n.note t)[a]? = if t = a ∧ t ∉ n then some n.size else n[a]? := by
  simp [note, Std.HashMap.getElem?_insertIfNew]

theorem Proper.note {n : Numbering T} (h : Proper n) (t : T) : Proper (n.note t) := by
  have hsize : n.size ≤ (n.note t).size := Std.HashMap.size_le_size_insertIfNew
  refine ⟨fun a l ha => ?_, fun a b l ha hb => ?_⟩
  · rw [getElem?_note] at ha
    split at ha
    next hnew =>
      rw [← Option.some.inj ha, Numbering.note, Std.HashMap.size_insertIfNew, if_neg hnew.2]
      exact Nat.lt_succ_self _
    next => exact Nat.lt_of_lt_of_le (h.lt_size a l ha) hsize
  · rw [getElem?_note] at ha hb
    split at ha <;> split at hb
    next ha' hb' => exact ha'.1.symm.trans hb'.1
    next => exact absurd (h.lt_size b l hb) (Option.some.inj ha ▸ Nat.lt_irrefl _)
    next => exact absurd (h.lt_size a l ha) (Option.some.inj hb ▸ Nat.lt_irrefl _)
    next => exact h.injective a b l ha hb

theorem getElem?_note_of_some {n : Numbering T} {a : T} {l : Nat} (h : n[a]? = some l) (t : T) :
    (n.note t)[a]? = some l := by
  rw [getElem?_note, if_neg, h]
  rintro ⟨rfl, hnot⟩
  exact hnot (Std.HashMap.isSome_getElem?_iff_mem.1 (by rw [h]; rfl))

theorem foldl_note {n : Numbering T} (h : Proper n) (ts : List T) :
    Proper (ts.foldl note n) ∧ (∀ (a : T) l, n[a]? = some l → (ts.foldl note n)[a]? = some l) ∧
      ∀ t ∈ ts, ∃ l, (ts.foldl note n)[t]? = some l := by
  induction ts generalizing n with
  | nil => exact ⟨h, fun _ _ h => h, nofun⟩
  | cons t ts ih =>
    obtain ⟨hproper, hkeep, hall⟩ := ih (h.note t)
    refine ⟨hproper, fun a l ha => hkeep a l (getElem?_note_of_some ha t), ?_⟩
    refine forall_mem_cons.2 ⟨?_, hall⟩
    obtain ⟨l, hl⟩ : ∃ l, (n.note t)[t]? = some l := by
      rw [getElem?_note]
      by_cases ht : t ∈ n
      · exact ⟨n[t], by simp [ht]⟩
      · exact ⟨n.size, by simp [ht]⟩
    exact ⟨l, hkeep t l hl⟩

theorem proper_ofEvents (events : List (ClassEvent T)) : Proper (ofEvents events) ∧
    ∀ e ∈ events, ∀ t ∈ e.targets, ∃ l, (ofEvents events)[t]? = some l := by
  have hfold (n : Numbering T) (h : Proper n) :
      Proper (events.foldl (fun n e => e.targets.foldl note n) n) ∧
      (∀ (a : T) l, n[a]? = some l →
        (events.foldl (fun n e => e.targets.foldl note n) n)[a]? = some l) ∧
      ∀ e ∈ events, ∀ t ∈ e.targets,
        ∃ l, (events.foldl (fun n e => e.targets.foldl note n) n)[t]? = some l := by
    induction events generalizing n with
    | nil => exact ⟨h, fun _ _ h => h, nofun⟩
    | cons e es ih =>
      obtain ⟨hproper, hkeep, hnew⟩ := foldl_note h e.targets
      obtain ⟨hproper', hkeep', hall⟩ := ih _ hproper
      refine ⟨hproper', fun a l ha => hkeep' a l (hkeep a l ha), ?_⟩
      refine forall_mem_cons.2 ⟨fun t ht => ?_, hall⟩
      obtain ⟨l, hl⟩ := hnew t ht
      exact ⟨l, hkeep' t l hl⟩
  obtain ⟨hproper, -, hall⟩ := hfold {} proper_empty
  exact ⟨hproper, hall⟩

end Numbering

/-! ## Work beside the methods -/

def ClassEvent.IsAside {T : Type} : ClassEvent T → Prop
  | header .. | source .. | field .. | finish => True
  | _ => False

namespace ClassBody

/-- Work on a class that leaves its methods and their labels alone. -/
structure Beside (x y : State) : Prop where
  grows : x.1.1.Grows y.1.1
  size : x.1.2.labels.size ≤ y.1.2.labels.size
  spot : ∀ l, y.1.2.spot l = x.1.2.spot l
  next : ∀ l, y.1.2.next l = x.1.2.next l
  methods : y.2.methods = x.2.methods
  written : y.2.written = x.2.written
  compute : y.2.compute = x.2.compute

instance : Steps Beside where
  refl x := ⟨Steps.refl x.1.1, Nat.le_refl _, fun _ => rfl, fun _ => rfl, rfl, rfl, rfl⟩
  trans h h' :=
    ⟨Steps.trans h.grows h'.grows, Nat.le_trans h.size h'.size,
      fun l => (h'.spot l).trans (h.spot l), fun l => (h'.next l).trans (h.next l),
      h'.methods.trans h.methods, h'.written.trans h.written, h'.compute.trans h.compute⟩

/-- A change of a class that leaves its methods alone. -/
class Sideward (f : ClassBody → ClassBody) : Prop where
  methods : ∀ c, (f c).methods = c.methods
  written : ∀ c, (f c).written = c.written
  compute : ∀ c, (f c).compute = c.compute

instance (access : ClassBody → Flags)
    (thisIndex signatureIndex superIndex sourceIndex outerIndex outerMethodIndex innerCount :
      ClassBody → Nat)
    (interfaces : ClassBody → List Nat) (sourceDebug : ClassBody → Option (List UInt8))
    (annotations : ClassBody → AnnotationLists) (attributes : ClassBody → Array RawAttribute)
    (inner : ClassBody → Option Buffer) (innerNames : ClassBody → Std.HashSet Text)
    (fields : ClassBody → Array Field) (store : ClassBody → AnnotationStore)
    (isEnded : ClassBody → Bool) :
    Sideward fun c =>
      { c with
        access := access c, thisIndex := thisIndex c, signatureIndex := signatureIndex c,
        superIndex := superIndex c, interfaces := interfaces c, sourceIndex := sourceIndex c,
        sourceDebug := sourceDebug c, outerIndex := outerIndex c,
        outerMethodIndex := outerMethodIndex c, annotations := annotations c,
        attributes := attributes c, inner := inner c, innerCount := innerCount c,
        innerNames := innerNames c, fields := fields c, store := store c, isEnded := isEnded c } :=
  ⟨fun _ => rfl, fun _ => rfl, fun _ => rfl⟩

end ClassBody

namespace ClassM

open ClassBody

section

variable {α : Type}

instance beside_lift {n : Type → Type} [MonadLiftT n SessionM] {x : n α}
    [hx : Keeps Quiet (liftM x : SessionM α)] : Keeps Beside (liftM x : ClassM α) :=
  keeps_lift hx fun _ _ _ h => ⟨h.grows, h.size, h.spot, h.next, rfl, rfl, rfl⟩

instance beside_modify (f : ClassBody → ClassBody) [hf : Sideward f] :
    Keeps Beside (modify f : ClassM PUnit) := by
  refine ⟨fun x a y h => ?_⟩
  obtain rfl := h.modify
  exact ⟨Steps.refl x.1.1, Nat.le_refl _, fun _ => rfl, fun _ => rfl, hf.methods x.2,
    hf.written x.2, hf.compute x.2⟩

end

instance quiet_classRefs (ts : List Text) : Keeps Pool.Grows (classRefs ts) := by
  induction ts with
  | nil => unfold classRefs; infer_instance
  | cons t ts ih => unfold classRefs; infer_instance

instance quiet_value (v : Value) : Keeps Pool.Grows (PoolM.value v) := by
  refine keeps_then fun o => ?_
  split <;> infer_instance

instance quiet_isOpen (op : String) (isEnded : Bool) : Keeps Pool.Grows (isOpen op isEnded) := by
  unfold isOpen
  infer_instance

instance beside_isLive (op : String) : Keeps Beside (isLive op) := by
  unfold isLive
  infer_instance

instance beside_setHeader (version : Int) (name : Text) :
    Keeps Beside (modifyThe Session (fun s => { s with version, thisName := name }) :
      ClassM PUnit) := by
  refine ⟨fun x a y h => ?_⟩
  simp only [ends_modifyThe_lift] at h
  obtain ⟨h, hc⟩ := h
  obtain ⟨y₁, y₂⟩ := y
  obtain rfl : _ = y₁ := h.modify
  exact ⟨Steps.refl x.1.1, Nat.le_refl _, fun _ => rfl, fun _ => rfl, by rw [hc],
    by rw [hc], by rw [hc]⟩

instance beside_header (version access : Int) (name signature super : Text)
    (interfaces : List Text) :
    Keeps Beside (header version access name signature super interfaces) := by
  unfold header
  refine keeps_then fun live => ?_
  dsimp only
  split
  · split
    · infer_instance
    · exact keeps_then fun _ => keeps_then fun _ =>
        keeps_then fun _ => inferInstance
  · infer_instance

instance beside_source (file debug : Text) : Keeps Beside (source file debug) := by
  unfold source
  infer_instance

instance beside_newField (access : Int) (name desc signature : Text) (value : Value) :
    Keeps Beside (newField access name desc signature value) := by
  unfold newField
  refine keeps_then fun live => ?_
  dsimp only
  split
  · refine keeps_then fun _ => keeps_then fun _ => ?_
    split
    · infer_instance
    · exact keeps_then fun _ => inferInstance
  · infer_instance

instance beside_field (f : FieldId) : Keeps Beside (field f) := by
  refine keeps_then fun c => ?_
  split <;> infer_instance

instance beside_modifyField (f : FieldId) (change : Field → Field) :
    Keeps Beside (modifyField f change) := by
  unfold modifyField
  infer_instance

instance beside_finish_field (f : FieldId) : Keeps Beside (finish (.field f)) := by
  unfold finish isElementLive
  infer_instance

instance beside_finish_body : Keeps Beside (finish .body) := by
  unfold finish
  infer_instance

variable {x y : State} {m m' : Option MethodId}

theorem beside_takeEvent {e : ClassEvent LabelId} (he : e.IsAside)
    (h : Ends (takeEvent m e) x m' y) : m' = m ∧ Beside x y := by
  cases e with
  | header v a n s u is =>
    obtain ⟨_, z, hz, h⟩ := h.bind
    obtain ⟨rfl, rfl⟩ := h.pure
    exact ⟨rfl, hz.keeps⟩
  | source f d =>
    obtain ⟨_, z, hz, h⟩ := h.bind
    obtain ⟨rfl, rfl⟩ := h.pure
    exact ⟨rfl, hz.keeps⟩
  | field a n d s v =>
    obtain ⟨o, z, hz, h⟩ := h.bind
    have hnew : Beside x z := hz.keeps
    cases o with
    | none =>
      obtain ⟨rfl, rfl⟩ := h.pure
      exact ⟨rfl, hnew⟩
    | some f =>
      obtain ⟨_, w, hw, h⟩ := h.bind
      obtain ⟨rfl, rfl⟩ := h.pure
      exact ⟨rfl, Steps.trans hnew hw.keeps⟩
  | finish =>
    obtain ⟨_, z, hz, h⟩ := h.bind
    obtain ⟨rfl, rfl⟩ := h.pure
    exact ⟨rfl, hz.keeps⟩
  | _ => exact he.elim

end ClassM

/-! ## New methods -/

namespace Method

variable {compute : Compute} {access : Int} {exceptions : List Text} {m : Method}
  {s t : Pool × Session} {desc name signature : Text}

/-- A method that has just been created. -/
structure Created (own : LabelId → Prop) (compute : Compute) (s : Pool × Session) (v : State) : Prop
    extends Blank v.2 where
  emitted : Emitted own [] v
  extends_ : s.1.Extends v.1.1
  size : s.2.labels.size ≤ v.1.2.labels.size
  others : ∀ l, ¬ own l → v.1.2.spot l = s.2.spot l
  apart : ∀ l n, ¬ own l → v.1.2.next l = some n → s.2.next l = some n
  compute : v.2.compute = compute

theorem ends_create (e : Ends (create compute access name desc signature exceptions) s m t) :
    ∃ (s₁ : Pool × Session) (flags : Flags) (nameIndex descIndex : Nat) (thrown : List Nat),
      Quiet s s₁ ∧
      Ends openCode (s₁,
        { access := flags, nameIndex, descIndex, name, desc, signature
          exceptions := thrown, compute })
        () (t, m) := by
  obtain ⟨nameIndex, s₁, h₁, e⟩ := e.bind
  obtain ⟨descIndex, s₂, h₂, e⟩ := e.bind
  obtain ⟨thrown, s₃, h₃, e⟩ := e.bind
  obtain ⟨⟨_, m'⟩, s₄, h₄, e⟩ := e.bind
  obtain ⟨rfl, rfl⟩ := e.pure
  have hsame₁ : Quiet s s₁ := h₁.keeps
  have hsame₂ : Quiet s₁ s₂ := h₂.keeps
  have hsame₃ : Quiet s₂ s₃ := h₃.keeps
  exact ⟨s₃, _, nameIndex, descIndex, thrown,
    Steps.trans hsame₁ (Steps.trans hsame₂ hsame₃), ends_run.1 h₄⟩

theorem grows_create (e : Ends (create compute access name desc signature exceptions) s m t) :
    s.1.Grows t.1 := by
  obtain ⟨s₁, _, _, _, _, hsame, hopen⟩ := ends_create e
  have hsteady : Steady _ _ := hopen.keeps
  exact Steps.trans hsame.grows hsteady.grows

theorem created_create {own : LabelId → Prop} (hwf : s.1.Wf)
    (hbase : ∀ l, s.2.labels.size ≤ l → own l)
    (hspot : ∀ l, own l → s.2.spot l = {} ∧ s.2.next l = none)
    (e : Ends (create compute access name desc signature exceptions) s m t) :
    Created own compute s (t, m) := by
  obtain ⟨s₁, flags, nameIndex, descIndex, thrown, hsame, hopen⟩ := ends_create e
  have hopens := opens_openCode (emitted_nil (hsame.grows hwf).1
    (fun l hl => hbase l (Nat.le_trans hsame.size hl))
    (fun l hl => by rw [hsame.spot, hsame.next]; exact hspot l hl) rfl rfl rfl rfl) hopen
  have hkeep {β : Type} (g : Method → β) := congrArg g hopens.outline
  exact {
    handlers := hkeep Method.handlers
    lines := hkeep Method.lineRows
    locals := hkeep Method.localRows
    types := hkeep Method.localTypeRows
    emitted := hopens.emitted
    extends_ := (hsame.grows hwf).2.trans hopens.extends_
    size := Nat.le_trans hsame.size hopens.size
    others := fun l hl => (hopens.others l hl).trans (hsame.spot l)
    apart := fun l n hl hn => hsame.next l ▸ hopens.apart l n hl hn
    compute := hkeep Method.compute }

end Method

def ClassBody.added (c : ClassBody) (m : Method) : ClassBody :=
  { c with methods := c.methods.push m, written := c.written.push c.methods.size }

@[simp] theorem ClassBody.getElem?_added (c : ClassBody) (m : Method) :
    (c.added m).methods[c.methods.size]? = some m :=
  Array.getElem?_push_size

@[simp] theorem ClassBody.withMethod_added (c : ClassBody) (m m' : Method) :
    (c.added m).withMethod c.methods.size m' = c.added m' := by
  have hset : (c.methods.push m).setIfInBounds c.methods.size m' = c.methods.push m' := by
    refine Array.ext_getElem? fun j => ?_
    by_cases hj : c.methods.size = j
    · subst hj
      rw [Array.getElem?_setIfInBounds_self_of_lt (by simp), Array.getElem?_push_size]
    · simp only [Array.getElem?_setIfInBounds_ne hj, Array.getElem?_push, if_neg (Ne.symm hj)]
  rw [withMethod, added, hset]
  rfl

namespace ClassM

open ClassBody

variable {x y z : State} {o o' : Option MethodId}

theorem ends_isLive {op : String} {b : Bool} (e : Ends (isLive op) x b y) :
    b = true ∧ x = y ∨ b = false ∧ y.1.1.failure ≠ none := by
  replace e := ends_get_bind.1 e
  obtain ⟨e, hc⟩ := e.lift
  obtain ⟨e, hs⟩ := e.lift
  rw [ends_liftSelf] at e
  obtain ⟨failed, p, h, e⟩ := e.bind
  obtain ⟨rfl, rfl⟩ := PoolM.ends_hasFailed.1 h
  split at e
  next hfailed =>
    obtain ⟨rfl, hp⟩ := e.pure
    exact .inr ⟨rfl, by rw [← hp]; simpa [Option.isSome_iff_ne_none] using hfailed⟩
  next =>
    split at e
    · obtain ⟨_, q, h, e⟩ := e.bind
      obtain ⟨rfl, hq⟩ := e.pure
      refine .inr ⟨rfl, ?_⟩
      rw [← hq, ← PoolM.ends_fail.1 h]
      exact Pool.recordFailure_ne_none _ _
    · obtain ⟨rfl, hp⟩ := e.pure
      exact .inl ⟨rfl, Prod.ext (Prod.ext hp hs) hc⟩

theorem ends_newMethod {access : Int} {name desc signature : Text} {exceptions : List Text}
    (e : Ends (newMethod access name desc signature exceptions) x o y) :
    Ends (isLive "VisitMethod") x false y ∧ y.1.1.failure ≠ none ∨
      o = some x.2.methods.size ∧ ∃ m,
        Ends (Method.create x.2.compute access name desc signature exceptions) x.1 m y.1 ∧
        y.2 = x.2.added m := by
  obtain ⟨live, w, h, e⟩ := e.bind
  rcases ends_isLive h with ⟨rfl, rfl⟩ | ⟨rfl, hw⟩
  · rw [if_pos rfl] at e
    replace e := ends_get_bind.1 e
    obtain ⟨m, w, hm, e⟩ := e.bind
    obtain ⟨hm, hw⟩ := hm.lift
    replace e := ends_get_bind.1 e
    replace e := ends_modify_bind.1 e
    obtain ⟨rfl, rfl⟩ := e.pure
    rw [← hw]
    exact .inr ⟨rfl, m, hm, rfl⟩
  · rw [if_neg (by simp)] at e
    obtain ⟨-, rfl⟩ := e.pure
    exact .inl ⟨h, hw⟩

/-! ## Events of one method -/

inductive Taken : List (ClassEvent LabelId) → Option MethodId → State → Option MethodId → State →
    Prop
  | nil (o : Option MethodId) (x : State) : Taken [] o x o x
  | cons {e : ClassEvent LabelId} {es : List (ClassEvent LabelId)} {o o₁ o₂ : Option MethodId}
      {x y z : State} : Ends (takeEvent o e) x o₁ y → Taken es o₁ y o₂ z → Taken (e :: es) o x o₂ z

theorem exists_taken {es : List (ClassEvent LabelId)} (e : Ends (takeEvents es o) x () y) :
    ∃ o', Taken es o x o' y := by
  induction es generalizing o x with
  | nil =>
    obtain ⟨-, rfl⟩ := e.pure
    exact ⟨o, .nil o x⟩
  | cons e' es ih =>
    obtain ⟨o₁, w, h, e⟩ := e.bind
    obtain ⟨o', h'⟩ := ih e
    exact ⟨o', .cons h h'⟩

theorem taken_append {es es' : List (ClassEvent LabelId)} (h : Taken (es ++ es') o x o' z) :
    ∃ o₁ y, Taken es o x o₁ y ∧ Taken es' o₁ y o' z := by
  induction es generalizing o x with
  | nil => exact ⟨o, x, .nil o x, h⟩
  | cons e es ih =>
    cases h with
    | cons h h' =>
      obtain ⟨o₁, y, hes, hes'⟩ := ih h'
      exact ⟨o₁, y, .cons h hes, hes'⟩

theorem taken_code {es : List (CodeEvent LabelId)} {id : MethodId} {m : Method}
    (hm : x.2.methods[id]? = some m) (h : Taken (es.map .code) (some id) x o y) :
    o = some id ∧ ∃ m', Ends (takeAll es) (x.1, m) () (y.1, m') ∧
      y.2 = x.2.withMethod id m' := by
  induction es generalizing x m with
  | nil =>
    cases h
    exact ⟨rfl, m, ends_pure.2 ⟨rfl, rfl⟩, (withMethod_self hm).symm⟩
  | cons e es ih =>
    rcases h with _ | ⟨h, h'⟩
    obtain ⟨_, w, hcode, hw⟩ := h.bind
    obtain ⟨rfl, rfl⟩ := hw.pure
    obtain ⟨m₀, m₁, hm₀, hrun, hw⟩ := ends_onMethod hcode
    obtain rfl := Option.some.inj (hm.symm.trans hm₀)
    obtain ⟨rfl, m', hrun', hy⟩ := ih (m := m₁) (by rw [hw]; exact getElem?_withMethod hm) h'
    refine ⟨rfl, m', ends_bind.2 ⟨(), _, hrun, hrun'⟩, ?_⟩
    rw [hy, hw, withMethod_withMethod]

instance steady_beginCode : Keeps Method.Steady beginCode := by
  unfold beginCode
  infer_instance

instance steady_finish : Keeps Method.Steady MethodM.finish := by
  unfold MethodM.finish
  infer_instance

theorem ends_beginCode {u v : Method.State} (hfail : v.1.1.failure = none)
    (e : Ends beginCode u () v) : v = (u.1, { u.2 with hasCode := true }) :=
  (ends_whenLive hfail e).modify.symm

theorem ends_finishMethod {u v : Method.State} (hfail : v.1.1.failure = none)
    (e : Ends MethodM.finish u () v) : v = (u.1, { u.2 with isEnded := true }) :=
  (ends_whenLive hfail e).modify.symm

end ClassM

/-- The events of the code of a method, with numbers for its labels. -/
def Listing.numbered (l : Listing) (i : Nat) (f : ListingLabel → LabelId) :
    List (CodeEvent LabelId) :=
  l.events.map fun e => (e.mapTargets (ListingLabel.mk i)).mapTargets f

theorem CheckedMethod.map_events (m : CheckedMethod) (i : Nat) (f : ListingLabel → LabelId) :
    (m.events i).map (ClassEvent.mapTargets f) =
      .method m.access.toNat m.name m.desc m.signature m.exceptions :: (match m.code with
        | none => []
        | some l =>
          .beginCode :: (l.numbered i f ++ [CodeEvent.maxs l.maxStack l.maxLocals]).map .code) ++
      [.finishMethod] := by
  unfold events codeEvents
  cases m.code with
  | none => rfl
  | some l =>
    simp [ClassEvent.mapTargets, CodeEvent.mapTargets, Listing.numbered, Function.comp_def]

namespace CheckedMethod

/-- The listing of a method can be assembled: all instructions are ones the machine has. -/
def Regular (m : CheckedMethod) : Prop :=
  ∀ l, m.code = some l → ∀ e ∈ l.events, e.Regular ∧ e.IsListed

theorem counted_of_regular {T : Type} {e : CodeEvent T} (h : e.Regular) : e.Counted := by
  cases e with
  | instruction i => exact Instruction.Regular.counted h
  | _ => trivial

theorem Regular.counted {m : CheckedMethod} (hm : m.Regular) {i : Nat} {f : ListingLabel → LabelId}
    {c : CodeEvent LabelId} (hc : ClassEvent.code c ∈ (m.events i).map (ClassEvent.mapTargets f)) :
    c.Counted := by
  rw [map_events] at hc
  cases hcode : m.code with
  | none => simp [hcode] at hc
  | some l =>
    simp only [hcode, cons_append, mem_append, mem_cons, mem_map, reduceCtorEq,
      ClassEvent.code.injEq, exists_eq_right, not_mem_nil, or_false, false_or] at hc
    rcases hc with hc | rfl
    · obtain ⟨e, he, rfl⟩ := mem_map.1 hc
      simpa [CodeEvent.counted_mapTargets] using counted_of_regular (hm l hcode e he).1
    · trivial

end CheckedMethod

namespace Method

/-- How a method of a class is assembled: it is created, it takes the events of its code, if it has
any, and it ends. -/
structure Run (c : ClassBody) (m : CheckedMethod) (i : Nat) (f : ListingLabel → LabelId)
    (s : Pool × Session) (u v : State) : Prop where
  created : Ends (create c.compute m.access.toNat m.name m.desc m.signature m.exceptions) s u.2 u.1
  taken : match m.code with
    | none => v = u
    | some l => Ends (takeAll (l.numbered i f ++ [.maxs l.maxStack l.maxLocals]))
        (u.1, { u.2 with hasCode := true }) () v

end Method

namespace ClassM

open ClassBody

variable {x y z : State} {o o' : Option MethodId}

theorem ends_takeEvent_onMethod {act : MethodM Unit} {id : MethodId} {m : Method}
    {b : Option MethodId} (hm : x.2.methods[id]? = some m)
    (h : Ends (do onOpen (some id) act; return b) x o y) :
    o = b ∧ ∃ m', Ends act (x.1, m) () (y.1, m') ∧ y.2 = x.2.withMethod id m' := by
  obtain ⟨_, w, hact, hw⟩ := h.bind
  obtain ⟨rfl, rfl⟩ := hw.pure
  obtain ⟨m₀, m₁, hm₀, hrun, hw⟩ := ends_onMethod hact
  obtain rfl := Option.some.inj (hm.symm.trans hm₀)
  exact ⟨rfl, m₁, hrun, hw⟩

theorem grows_onOpen {act : MethodM Unit} [hact : Keeps Method.Steady act]
    (h : Ends (onOpen o act) x () y) : x.1.1.Grows y.1.1 := by
  cases o with
  | none =>
    obtain ⟨-, rfl⟩ := h.pure
    exact Steps.refl _
  | some id =>
    obtain ⟨m, m', -, hrun, -⟩ := ends_onMethod h
    exact (hact.run _ _ _ hrun).grows

theorem grows_takeEvent {e : ClassEvent LabelId} (he : ∀ c, e = .code c → c.Counted)
    (h : Ends (takeEvent o e) x o' y) : x.1.1.Grows y.1.1 := by
  cases e with
  | method a n d s es =>
    obtain ⟨live, w, hlive, h⟩ := h.bind
    have hw : Beside x w := hlive.keeps
    refine Steps.trans hw.grows ?_
    split at h
    · replace h := ends_get_bind.1 h
      obtain ⟨m, v, hm, h⟩ := h.bind
      replace h := ends_get_bind.1 h
      replace h := ends_modify_bind.1 h
      obtain ⟨-, rfl⟩ := h.pure
      exact Method.grows_create hm.lift.1
    · obtain ⟨-, rfl⟩ := h.pure
      exact Steps.refl _
  | beginCode =>
    obtain ⟨_, w, hw, h⟩ := h.bind
    obtain ⟨-, rfl⟩ := h.pure
    exact grows_onOpen hw
  | code c =>
    obtain ⟨_, w, hw, h⟩ := h.bind
    obtain ⟨-, rfl⟩ := h.pure
    have := steady_take (he c rfl)
    exact grows_onOpen hw
  | finishMethod =>
    obtain ⟨_, w, hw, h⟩ := h.bind
    obtain ⟨-, rfl⟩ := h.pure
    exact grows_onOpen hw
  | _ => exact (beside_takeEvent (by trivial) h).2.grows

theorem grows_taken {es : List (ClassEvent LabelId)} (hes : ∀ c, .code c ∈ es → c.Counted)
    (h : Taken es o x o' y) : x.1.1.Grows y.1.1 := by
  induction h with
  | nil => exact Steps.refl _
  | cons h _ ih =>
    exact Steps.trans (grows_takeEvent (fun c hc => hes c (hc ▸ mem_cons_self)) h)
      (ih fun c hc => hes c (mem_cons_of_mem _ hc))

theorem no_failure_of_taken {es : List (ClassEvent LabelId)} (hes : ∀ c, .code c ∈ es → c.Counted)
    (hwf : x.1.1.Wf) (hfail : y.1.1.failure = none) (h : Taken es o x o' y) :
    x.1.1.failure = none ∧ y.1.1.Wf :=
  ⟨(grows_taken hes h hwf).2.no_failure hfail, (grows_taken hes h hwf).1⟩

theorem taken_method {m : CheckedMethod} {i : Nat} {f : ListingLabel → LabelId} (hwf : x.1.1.Wf)
    (hm : m.Regular) (hfail : y.1.1.failure = none)
    (h : Taken ((m.events i).map (ClassEvent.mapTargets f)) none x o y) :
    o = none ∧ ∃ u v, Method.Run x.2 m i f x.1 u v ∧ v.1 = y.1 ∧
      y.2 = x.2.added { v.2 with isEnded := true } := by
  have hcounted := fun c => hm.counted (i := i) (f := f) (c := c)
  rw [CheckedMethod.map_events, cons_append] at h hcounted
  rcases h with _ | @⟨_, _, _, o₁, _, _, w₁, _, hnew, h⟩
  have hwf₁ : w₁.1.1.Wf := (grows_takeEvent (fun c hc => by cases hc) hnew hwf).1
  have hfail₁ :=
    (no_failure_of_taken (fun c hc => hcounted c (mem_cons_of_mem _ hc)) hwf₁ hfail h).1
  obtain ⟨rfl, m₀, hcreate, hw₁⟩ := (ends_newMethod hnew).resolve_left fun h => h.2 hfail₁
  have hm₀ : w₁.2.methods[x.2.methods.size]? = some m₀ := hw₁ ▸ getElem?_added ..
  obtain ⟨o₂, w₂, h, hend⟩ := taken_append h
  rcases hend with _ | @⟨_, _, _, o₃, _, _, w₃, _, hfinish, hend⟩
  cases hend
  have hwf₂ : w₂.1.1.Wf := by
    refine (grows_taken (fun c hc => hcounted c ?_) h hwf₁).1
    exact mem_cons_of_mem _ (mem_append_left _ hc)
  have hfail₂ : w₂.1.1.failure = none :=
    (grows_takeEvent (fun c hc => by cases hc) hfinish hwf₂).2.no_failure hfail
  cases hcode : m.code with
  | none =>
    rw [hcode] at h
    cases h
    obtain ⟨rfl, m₃, hrun₃, hy⟩ := ends_takeEvent_onMethod hm₀ hfinish
    obtain ⟨hs₃, rfl⟩ := Prod.mk.inj (ends_finishMethod hfail hrun₃)
    refine ⟨rfl, (w₁.1, m₀), (w₁.1, m₀), ⟨hcreate, by simp [hcode]⟩, hs₃.symm, ?_⟩
    rw [hy, hw₁, withMethod_added]
  | some l =>
    rw [hcode] at h hcounted
    rcases h with _ | @⟨_, _, _, o₄, _, _, w₄, _, hbegin, h⟩
    have hwf₄ : w₄.1.1.Wf := (grows_takeEvent (fun c hc => by cases hc) hbegin hwf₁).1
    have hfail₄ : w₄.1.1.failure = none := by
      refine (grows_taken (fun c hc => hcounted c ?_) h hwf₄).2.no_failure hfail₂
      exact mem_cons_of_mem _ (mem_append_left _ (mem_cons_of_mem _ hc))
    obtain ⟨rfl, m₄, hrun₄, hw₄⟩ := ends_takeEvent_onMethod hm₀ hbegin
    obtain ⟨hs₄, rfl⟩ := Prod.mk.inj (ends_beginCode hfail₄ hrun₄)
    rw [hw₁, withMethod_added] at hw₄
    obtain ⟨rfl, m₅, hrun₅, hw₂⟩ := taken_code (hw₄ ▸ getElem?_added ..) h
    rw [hw₄, withMethod_added] at hw₂
    obtain ⟨rfl, m₃, hrun₃, hy⟩ := ends_takeEvent_onMethod (hw₂ ▸ getElem?_added ..) hfinish
    obtain ⟨hs₃, rfl⟩ := Prod.mk.inj (ends_finishMethod hfail hrun₃)
    refine ⟨rfl, (w₁.1, m₀), (w₂.1, m₅), ⟨hcreate, ?_⟩, hs₃.symm, ?_⟩
    · have hs₄ : w₄.1 = w₁.1 := hs₄
      rw [hs₄] at hrun₅
      rw [hcode]
      exact hrun₅
    · rw [hy, hw₂, withMethod_added]

end ClassM

/-! ## All methods of a class -/

def Numbering.OfMethod (n : Numbering ListingLabel) (i : Nat) (l : LabelId) : Prop :=
  ∃ name, n[ListingLabel.mk i name]? = some l

namespace ClassBody

/-- The labels of all methods from a place on are still unused. -/
structure Unused (n : Numbering ListingLabel) (k : Nat) (x : State) : Prop where
  wf : x.1.1.Wf
  size : n.size ≤ x.1.2.labels.size
  unused : ∀ j, k ≤ j → ∀ l, n.OfMethod j l → x.1.2.spot l = {} ∧ x.1.2.next l = none

/-- Methods are added to a class; labels keep their places, apart from those of the new methods. -/
structure Extended (n : Numbering ListingLabel) (k : Nat) (x y : State) : Prop where
  extends_ : x.1.1.Extends y.1.1
  size : x.1.2.labels.size ≤ y.1.2.labels.size
  spot : ∀ l < x.1.2.labels.size, (∀ j, k ≤ j → ¬ n.OfMethod j l) → y.1.2.spot l = x.1.2.spot l
  methods : ∀ m (id : Nat), x.2.methods[id]? = some m → y.2.methods[id]? = some m
  written : ∀ (i : Nat) id, x.2.written[i]? = some id → y.2.written[i]? = some id
  compute : y.2.compute = x.2.compute

/-- A method of a class as it was assembled, with the labels that belong to it. -/
structure Recorded (n : Numbering ListingLabel) (m : CheckedMethod) (i : Nat)
    (f : ListingLabel → LabelId) (y : State) (own : LabelId → Prop) (u v : Method.State) :
    Prop where
  blank : ∃ s, Method.Created own y.2.compute s u
  taken : match m.code with
    | none => v = u
    | some l => Ends (takeAll (l.numbered i f ++ [.maxs l.maxStack l.maxLocals]))
        (u.1, { u.2 with hasCode := true }) () v
  unfailed : v.1.1.failure = none
  own_iff : ∀ l, l < n.size → (own l ↔ n.OfMethod i l)
  extends_ : v.1.1.Extends y.1.1
  size : v.1.2.labels.size ≤ y.1.2.labels.size
  spot : ∀ l, own l → l < v.1.2.labels.size → y.1.2.spot l = v.1.2.spot l
  method : ∃ id, y.2.written[i]? = some id ∧ y.2.methods[id]? = some { v.2 with isEnded := true }

variable {n : Numbering ListingLabel} {k : Nat} {x y z : State}

theorem Beside.extended (h : Beside x y) (hwf : x.1.1.Wf) : Extended n k x y :=
  ⟨(h.grows hwf).2, h.size, fun l _ _ => h.spot l, fun _ _ hm => h.methods ▸ hm,
    fun _ _ hid => h.written ▸ hid, h.compute⟩

theorem Extended.refl : Extended n k x x :=
  ⟨.refl _, Nat.le_refl _, fun _ _ _ => rfl, fun _ _ h => h, fun _ _ h => h, rfl⟩

theorem Extended.trans (h : Extended n k x y) (h' : Extended n (k + 1) y z) : Extended n k x z where
  extends_ := h.extends_.trans h'.extends_
  size := Nat.le_trans h.size h'.size
  spot l hl hj := (h'.spot l (Nat.lt_of_lt_of_le hl h.size)
    fun j hkj => hj j (Nat.le_of_succ_le hkj)).trans (h.spot l hl hj)
  methods m id hm := h'.methods m id (h.methods m id hm)
  written i id hid := h'.written i id (h.written i id hid)
  compute := h'.compute.trans h.compute

theorem Recorded.extended {m : CheckedMethod} {i : Nat} {f : ListingLabel → LabelId}
    {own : LabelId → Prop} {u v : Method.State} (hn : n.Proper) (hi : i < k)
    (h : Recorded n m i f y own u v) (h' : Extended n k y z) : Recorded n m i f z own u v where
  blank := h'.compute ▸ h.blank
  taken := h.taken
  unfailed := h.unfailed
  own_iff := h.own_iff
  extends_ := h.extends_.trans h'.extends_
  size := Nat.le_trans h.size h'.size
  spot l hl hlt := by
    refine (h'.spot l (Nat.lt_of_lt_of_le hlt h.size) ?_).trans (h.spot l hl hlt)
    rintro j hj ⟨name, hname⟩
    obtain ⟨name', hname'⟩ := (h.own_iff l (hn.lt_size _ l hname)).1 hl
    have hij : i = j := congrArg ListingLabel.method (hn.injective _ _ l hname' hname)
    omega
  method := by
    obtain ⟨id, hid, hm⟩ := h.method
    exact ⟨id, h'.written i id hid, h'.methods _ id hm⟩

theorem Recorded.assembles {m : CheckedMethod} {i : Nat} {f : ListingLabel → LabelId}
    {own : LabelId → Prop} {u v : Method.State} {l : Listing} (h : Recorded n m i f y own u v)
    (hl : m.code = some l) (hreg : ∀ e ∈ l.events, e.Regular) (hlisted : ∀ e ∈ l.events, e.IsListed)
    (hown : ∀ e ∈ l.numbered i f, ∀ t ∈ e.targets, own t) :
    Method.Assembles own (l.numbered i f) (u.1, { u.2 with hasCode := true }) v := by
  obtain ⟨s, hs⟩ := h.blank
  have htaken := h.taken
  rw [hl] at htaken
  refine assembles_takeAll (u := (u.1, { u.2 with hasCode := true })) ?_ ?_ ?_ hown ?_
    h.unfailed htaken
  · exact hs.emitted.withEntry rfl rfl rfl rfl hs.emitted.entry
  · exact ⟨hs.handlers, hs.lines, hs.locals, hs.types⟩
  · intro e he
    obtain ⟨e, he', rfl⟩ := mem_map.1 he
    simpa [CodeEvent.regular_mapTargets] using hreg e he'
  · intro e he stack locals
    obtain ⟨e, he', rfl⟩ := mem_map.1 he
    have := hlisted e he'
    cases e <;> simp_all [CodeEvent.mapTargets, CodeEvent.IsListed]

end ClassBody

namespace ClassM

open ClassBody

variable {n : Numbering ListingLabel} {k : Nat} {x y : State} {o : Option MethodId}

variable {f : ListingLabel → LabelId}

theorem recorded_method {m : CheckedMethod} (hn : n.Proper) (hx : Unused n k x)
    (hk : x.2.written.size = k) (hrange : x.2.InRange) (hm : m.Regular)
    (hf : ∀ l, m.code = some l → ∀ e ∈ l.events, ∀ t ∈ e.targets, n[ListingLabel.mk k t]? =
      some (f ⟨k, t⟩))
    (hfail : y.1.1.failure = none)
    (h : Taken ((m.events k).map (ClassEvent.mapTargets f)) none x o y) :
    o = none ∧ Unused n (k + 1) y ∧ Extended n k x y ∧ y.2.written.size = k + 1 ∧ y.2.InRange ∧
      ∃ own u v, Recorded n m k f y own u v := by
  obtain ⟨rfl, u, v, hrun, hv, hy⟩ := taken_method hx.wf hm hfail h
  let own : LabelId → Prop := fun l => n.OfMethod k l ∨ x.1.2.labels.size ≤ l
  have hcreated : Method.Created own x.2.compute x.1 u := by
    refine Method.created_create hx.wf (fun l hl => .inr hl) (fun l hl => ?_) hrun.created
    rcases hl with hl | hl
    · exact hx.unused k (Nat.le_refl k) l hl
    · exact ⟨Session.spot_of_size_le hl, by simp [Session.next, Array.getElem?_eq_none hl]⟩
  have hrecorded : Recorded n m k f y own u v := {
    blank := ⟨x.1, by rw [hy]; exact hcreated⟩
    taken := hrun.taken
    unfailed := hv ▸ hfail
    own_iff := fun l hl => or_iff_left (Nat.not_le.2 (Nat.lt_of_lt_of_le hl hx.size))
    extends_ := hv ▸ .refl _
    size := hv ▸ Nat.le_refl _
    spot := fun l _ _ => by rw [hv]
    method := by
      refine ⟨x.2.methods.size, ?_, ?_⟩
      · rw [hy, ← hk]
        exact Array.getElem?_push_size
      · rw [hy]
        exact getElem?_added .. }
  have hown : ∀ l, m.code = some l → ∀ e ∈ l.numbered k f, ∀ t ∈ e.targets, own t := by
    intro l hl e he t ht
    obtain ⟨e, he', rfl⟩ := mem_map.1 he
    rw [CodeEvent.targets_mapTargets, CodeEvent.targets_mapTargets, map_map] at ht
    obtain ⟨name, hname, rfl⟩ := mem_map.1 ht
    exact .inl ⟨name, hf l hl e he' name hname⟩
  -- whether or not there is code, only labels of the method change
  obtain ⟨hwf, hext, hsize, hothers, hapart⟩ : v.1.1.Wf ∧ u.1.1.Extends v.1.1 ∧
      u.1.2.labels.size ≤ v.1.2.labels.size ∧ (∀ l, ¬ own l → v.1.2.spot l = u.1.2.spot l) ∧
      ∀ l n, ¬ own l → v.1.2.next l = some n → u.1.2.next l = some n := by
    cases hcode : m.code with
    | none =>
      have htaken := hrun.taken
      rw [hcode] at htaken
      obtain rfl : v = u := htaken
      exact ⟨hcreated.emitted.wf, .refl _, Nat.le_refl _, fun _ _ => rfl, fun _ _ _ h => h⟩
    | some l =>
      have hassembles := hrecorded.assembles hcode (fun e he => (hm l hcode e he).1)
        (fun e he => (hm l hcode e he).2) (hown l hcode)
      obtain ⟨items, hclosed⟩ := hassembles.closed
      exact ⟨hclosed.wf, hassembles.extends_, hassembles.size, hassembles.others, hassembles.apart⟩
  have hnot : ∀ j, k + 1 ≤ j → ∀ l, n.OfMethod j l → ¬ own l := by
    rintro j hj l ⟨name, hname⟩ (⟨name', hname'⟩ | hl)
    · have : j = k := congrArg ListingLabel.method (hn.injective _ _ l hname hname')
      omega
    · exact absurd (Nat.lt_of_lt_of_le (hn.lt_size _ l hname) hx.size) (Nat.not_lt.2 hl)
  refine ⟨rfl, ⟨hv ▸ hwf, ?_, fun j hj l hl => ?_⟩,
    ⟨?_, ?_, fun l hl hj => ?_, ?_, ?_, by rw [hy]; rfl⟩, ?_, ?_, own, u, v, hrecorded⟩
  · rw [← hv]
    exact Nat.le_trans hx.size (Nat.le_trans hcreated.size hsize)
  · have hnot := hnot j hj l hl
    obtain ⟨hspot, hnext⟩ := hx.unused j (Nat.le_of_succ_le hj) l hl
    rw [← hv, hothers l hnot, hcreated.others l hnot]
    refine ⟨hspot, Option.eq_none_iff_forall_ne_some.2 fun b hb => ?_⟩
    cases hnext.symm.trans (hcreated.apart l b hnot (hapart l b hnot hb))
  · rw [← hv]
    exact hcreated.extends_.trans hext
  · rw [← hv]
    exact Nat.le_trans hcreated.size hsize
  · have hnot : ¬ own l := fun hown => hown.elim (hj k (Nat.le_refl k)) (Nat.not_le.2 hl)
    rw [← hv, hothers l hnot, hcreated.others l hnot]
  · intro m' id hid
    rw [hy]
    have := (Array.getElem?_eq_some_iff.1 hid).1
    simp only [added, Array.getElem?_push, if_neg (Nat.ne_of_lt this), hid]
  · intro i id hid
    rw [hy]
    have := (Array.getElem?_eq_some_iff.1 hid).1
    simp only [added, Array.getElem?_push, if_neg (Nat.ne_of_lt this), hid]
  · rw [hy, ← hk]
    exact Array.size_push _
  · intro id hid
    rw [hy] at hid ⊢
    rw [added, Array.size_push]
    rcases Array.mem_push.1 hid with hid | rfl
    · exact Nat.lt_succ_of_lt (hrange id hid)
    · exact Nat.lt_succ_self _

theorem counted_events {ms : List CheckedMethod} {c : CodeEvent LabelId} (hms : ∀ m ∈ ms, m.Regular)
    (hc : ClassEvent.code c ∈
      ((ms.zipIdx k).map fun (m, i) => m.events i).flatten.map (ClassEvent.mapTargets f)) :
    c.Counted := by
  obtain ⟨e, he, hc⟩ := mem_map.1 hc
  obtain ⟨es, hes, he⟩ := mem_flatten.1 he
  obtain ⟨⟨m, i⟩, hm, rfl⟩ := mem_map.1 hes
  have hmem : m ∈ ms := (mem_zipIdx hm).2.2 ▸ getElem_mem _
  exact (hms m hmem).counted (mem_map.2 ⟨e, he, hc⟩)

theorem recorded_methods {ms : List CheckedMethod} (hn : n.Proper) (hx : Unused n k x)
    (hk : x.2.written.size = k) (hrange : x.2.InRange) (hms : ∀ m ∈ ms, m.Regular)
    (hf : ∀ m i, (m, i) ∈ ms.zipIdx k → ∀ l, m.code = some l → ∀ e ∈ l.events, ∀ t ∈ e.targets,
      n[ListingLabel.mk i t]? = some (f ⟨i, t⟩))
    (hfail : y.1.1.failure = none)
    (h : Taken (((ms.zipIdx k).map fun (m, i) => m.events i).flatten.map (ClassEvent.mapTargets f))
      none x o y) :
    o = none ∧ y.1.1.Wf ∧ y.2.written.size = k + ms.length ∧ y.2.InRange ∧ Extended n k x y ∧
      ∀ m i, (m, i) ∈ ms.zipIdx k → ∃ own u v, Recorded n m i f y own u v := by
  induction ms generalizing k x with
  | nil =>
    cases h
    exact ⟨rfl, hx.wf, hk, hrange, .refl, nofun⟩
  | cons m ms ih =>
    rw [zipIdx_cons, map_cons, flatten_cons, map_append] at h
    obtain ⟨o₁, w, hw, h⟩ := taken_append h
    obtain ⟨hm, hms⟩ := forall_mem_cons.1 hms
    have hwf : w.1.1.Wf := (grows_taken (fun c hc => hm.counted hc) hw hx.wf).1
    have hfail₁ : w.1.1.failure = none :=
      (no_failure_of_taken (fun c hc => counted_events hms hc) hwf hfail h).1
    obtain ⟨rfl, hunused, hext, hsize, hrange', own, u, v, hrecorded⟩ :=
      recorded_method hn hx hk hrange hm (hf m k mem_cons_self) hfail₁ hw
    obtain ⟨rfl, hwf', hsize', hrange', hext', hall⟩ := ih hunused hsize hrange' hms
      (fun m' i hm' => hf m' i (mem_cons_of_mem _ hm')) h
    refine ⟨rfl, hwf', by rw [hsize', length_cons]; omega, hrange', hext.trans hext', ?_⟩
    intro m' i hm'
    rcases mem_cons.1 hm' with heq | hm'
    · obtain ⟨rfl, rfl⟩ := Prod.mk.inj heq
      exact ⟨own, u, v, hrecorded.extended hn (Nat.lt_succ_self _) hext'⟩
    · exact hall m' i hm'

theorem taken_aside {es : List (ClassEvent LabelId)} {o' : Option MethodId}
    (hes : ∀ e ∈ es, e.IsAside) (h : Taken es o x o' y) : o' = o ∧ Beside x y := by
  induction h with
  | nil => exact ⟨rfl, Steps.refl _⟩
  | cons h _ ih =>
    obtain ⟨he, hes⟩ := forall_mem_cons.1 hes
    obtain ⟨rfl, hbeside⟩ := beside_takeEvent he h
    obtain ⟨rfl, hbeside'⟩ := ih hes
    exact ⟨rfl, Steps.trans hbeside hbeside'⟩

theorem ends_newLabels (h : Ends (newLabels k) x () y) :
    Beside x y ∧ y.1.2.labels.size = x.1.2.labels.size + k ∧ y.2 = x.2 := by
  induction k generalizing x with
  | zero =>
    obtain ⟨-, rfl⟩ := h.pure
    exact ⟨Steps.refl _, rfl, rfl⟩
  | succ k ih =>
    obtain ⟨_, w, hw, h⟩ := h.bind
    have hbeside : Beside x w := hw.keeps
    rw [Functor.discard, LawfulFunctor.map_const] at hw
    obtain ⟨l, hl, -⟩ := ends_map.1 hw
    obtain ⟨hl, hc⟩ := hl.lift
    obtain ⟨rfl, hs⟩ := SessionM.ends_newLabel.1 hl
    obtain ⟨hbeside', hsize, hbody⟩ := ih h
    refine ⟨Steps.trans hbeside hbeside', ?_, hbody.trans hc.symm⟩
    rw [hsize, ← hs, Session.size_addLabel]
    omega

end ClassM

namespace CheckedClass

open ClassBody ClassM

variable {c : CheckedClass}

def numbering (c : CheckedClass) : Numbering ListingLabel := .ofEvents c.events

def number (c : CheckedClass) (l : ListingLabel) : LabelId := c.numbering.getD l 0

def TakenBy (c : CheckedClass) (a : Assembler) (y : State) : Prop :=
  ∃ x, Ends (newLabels c.numbering.size) ((a.pool, a.session), a.body) () x ∧
    Ends (takeEvents (ClassEvent.number c.events) none) x () y

theorem map_events (c : CheckedClass) : ∃ first, (∀ e ∈ first, ClassEvent.IsAside e) ∧
    ClassEvent.number c.events = first ++
      (((c.methods.zipIdx 0).map fun (m, i) => m.events i).flatten.map
        (ClassEvent.mapTargets c.number) ++ [.finish]) := by
  refine ⟨(ClassEvent.header c.version c.access.toNat c.name c.signature c.super c.interfaces
    :: (if c.source.isEmpty then [] else [ClassEvent.source c.source []])
    ++ c.fields.map CheckedField.event).map (ClassEvent.mapTargets c.number), fun e he => ?_, ?_⟩
  · obtain ⟨e, he', rfl⟩ := mem_map.1 he
    simp only [cons_append, mem_cons, mem_append] at he'
    rcases he' with rfl | he' | he'
    · trivial
    · split at he'
      · cases he'
      · rw [mem_singleton.1 he']
        trivial
    · obtain ⟨field, -, rfl⟩ := mem_map.1 he'
      trivial
  · rw [ClassEvent.number, ← append_assoc, ← map_append]
    exact map_append

theorem getElem?_numbering {m : CheckedMethod} {i : Nat} (hm : (m, i) ∈ c.methods.zipIdx)
    {l : Listing} (hl : m.code = some l) {e : CodeEvent Text} (he : e ∈ l.events) {t : Text}
    (ht : t ∈ e.targets) : c.numbering[ListingLabel.mk i t]? = some (c.number ⟨i, t⟩) := by
  have hevent : ClassEvent.code (e.mapTargets (ListingLabel.mk i)) ∈ c.events := by
    have hmethod : ClassEvent.code (e.mapTargets (ListingLabel.mk i)) ∈ m.events i := by
      simp only [CheckedMethod.events, CheckedMethod.codeEvents, hl, mem_append, mem_cons,
        mem_map]
      exact .inl (.inr (.inl (.inr ⟨e, he, rfl⟩)))
    refine mem_append_left _ (mem_append_right _ (mem_flatten.2 ⟨_, ?_, hmethod⟩))
    exact mem_map.2 ⟨(m, i), hm, rfl⟩
  obtain ⟨k, hk⟩ := (Numbering.proper_ofEvents c.events).2 _ hevent ⟨i, t⟩ (by
    rw [ClassEvent.targets, CodeEvent.targets_mapTargets]
    exact mem_map_of_mem ht)
  rw [numbering, number, numbering, Std.HashMap.getD_eq_getD_getElem?, hk]
  rfl

theorem start_create (compute : Compute) (options : Options) :
    (Assembler.create compute options).pool.Wf ∧
    (Assembler.create compute options).session.labels = #[] ∧
    (Assembler.create compute options).body = { compute } := by
  unfold Assembler.create
  split
  · exact ⟨Pool.wf_empty, rfl, rfl⟩
  · split
    · exact ⟨Pool.wf_empty, rfl, rfl⟩
    · exact ⟨Pool.wf_empty.recordFailure _, rfl, rfl⟩

/-- The pool stays well formed while the events of a class are taken. -/
theorem wf_takenBy {compute : Compute} {options : Options} {y : State}
    (hc : ∀ m ∈ c.methods, m.Regular) (h : c.TakenBy (Assembler.create compute options) y) :
    y.1.1.Wf := by
  obtain ⟨x, hlabels, hevents⟩ := h
  obtain ⟨o, hevents⟩ := exists_taken hevents
  obtain ⟨first, hfirst, hsplit⟩ := c.map_events
  rw [hsplit] at hevents
  refine (grows_taken (fun e he => ?_) hevents
    ((ends_newLabels hlabels).1.grows (start_create compute options).1).1).1
  simp only [mem_append, mem_singleton, reduceCtorEq, or_false] at he
  rcases he with he | he
  · exact (hfirst _ he).elim
  · exact counted_events hc he

/-- Each method is recorded by itself, with labels that no other method has. -/
theorem recorded_takenBy {compute : Compute} {options : Options} {y : State}
    (hc : ∀ m ∈ c.methods, m.Regular) (hfail : y.1.1.failure = none)
    (h : c.TakenBy (Assembler.create compute options) y) :
    y.1.1.Wf ∧ y.2.written.size = c.methods.length ∧ y.2.InRange ∧ y.2.compute = compute ∧
      ∀ i m, c.methods[i]? = some m → ∃ own u v, Recorded c.numbering m i c.number y own u v := by
  obtain ⟨x, hlabels, hevents⟩ := h
  obtain ⟨hnumbering, hmentioned⟩ := Numbering.proper_ofEvents c.events
  obtain ⟨o, hevents⟩ := exists_taken hevents
  obtain ⟨first, hfirst, hsplit⟩ := c.map_events
  rw [hsplit] at hevents
  obtain ⟨o₁, w₁, h₁, h⟩ := taken_append hevents
  obtain ⟨o₂, w₂, h₂, h₃⟩ := taken_append h
  obtain ⟨hnew, hsize, hbody⟩ := ends_newLabels hlabels
  obtain ⟨rfl, hbeside₁⟩ := taken_aside hfirst h₁
  obtain ⟨rfl, hbeside₃⟩ := taken_aside (forall_mem_singleton.2 (by trivial)) h₃
  obtain ⟨hwf, hempty, hstart⟩ := start_create compute options
  have hwf₁ : w₁.1.1.Wf := (hbeside₁.grows (hnew.grows hwf).1).1
  -- no label has been used yet
  have hspot : ∀ l, w₁.1.2.spot l = {} ∧ w₁.1.2.next l = none := by
    intro l
    rw [hbeside₁.spot, hbeside₁.next, hnew.spot, hnew.next]
    simp [Session.spot, Session.next, hempty]
  have hlabels₁ : c.numbering.size ≤ w₁.1.2.labels.size := by
    refine Nat.le_trans ?_ hbeside₁.size
    rw [hsize, hempty]
    exact Nat.le_add_left ..
  have hmethods₁ : w₁.2.methods = #[] ∧ w₁.2.written = #[] ∧ w₁.2.compute = compute := by
    rw [hbeside₁.methods, hbeside₁.written, hbeside₁.compute, hbody, hstart]
    exact ⟨rfl, rfl, rfl⟩
  have hwf₂ : w₂.1.1.Wf := (grows_taken (fun e he => counted_events hc he) h₂ hwf₁).1
  have hfail₂ : w₂.1.1.failure = none := (hbeside₃.grows hwf₂).2.no_failure hfail
  obtain ⟨-, -, hcount, hrange, hext, hall⟩ := recorded_methods hnumbering
    ⟨hwf₁, hlabels₁, fun j _ l _ => hspot l⟩ (by rw [hmethods₁.2.1]; rfl)
    (by intro id hid; rw [hmethods₁.2.1] at hid; simp at hid) hc
    (fun m i hm l hl e he t ht => getElem?_numbering hm hl he ht) hfail₂ h₂
  refine ⟨(hbeside₃.grows hwf₂).1, ?_, ?_, ?_, fun i m hm => ?_⟩
  · rw [hbeside₃.written, hcount, Nat.zero_add]
  · intro id hid
    rw [hbeside₃.written] at hid
    rw [hbeside₃.methods]
    exact hrange id hid
  · rw [hbeside₃.compute, hext.compute, hmethods₁.2.2]
  · have hi : i < c.methods.length := (List.getElem?_eq_some_iff.1 hm).1
    have hmem : (m, i) ∈ c.methods.zipIdx := List.mk_mem_zipIdx_iff_getElem?.2 hm
    obtain ⟨own, u, v, hrecorded⟩ := hall m i hmem
    exact ⟨own, u, v, hrecorded.extended hnumbering hi (hbeside₃.extended hwf₂)⟩

end CheckedClass

end ClassAssembler
