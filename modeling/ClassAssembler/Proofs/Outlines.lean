import Mathlib
import ClassAssembler.Proofs.Calls

/-!
# The class that visits describe

`Outline` is what the visits so far say about the class; `ClassBody.Described` says that the class
under construction, with indices into its pool, is the one of an outline.  Every visit keeps it, and
so does the rewriting of methods at the end.  So the class file that is finally written is the one
that the visits describe, with every index referring to the entry that was registered for it
(`Outline.Shown`).
-/

namespace ClassAssembler

open List Assembler Visit

set_option synthInstance.maxSize 400

open Buffer Format

/-! ## Outlines -/

structure FieldOutline where
  access : Int
  name : Text
  desc : Text
  signature : Text
  value : Value
deriving DecidableEq

structure MethodOutline where
  access : Int
  name : Text
  desc : Text
  signature : Text
  exceptions : List Text
deriving DecidableEq

/-- What visits say about a class and its members.  An empty text stands for none. -/
structure Outline where
  version : Int := 0
  access : Int := 0
  name : Text := []
  signature : Text := []
  super : Text := []
  interfaces : List Text := []
  fields : List FieldOutline := []
  methods : List MethodOutline := []
deriving DecidableEq

namespace Outline

def take (o : Outline) : Visit → Outline
  | .header version access name signature super interfaces =>
    { o with
      version, access, name, interfaces
      signature := if signature.isEmpty then o.signature else signature
      super := if super.isEmpty then o.super else super }
  | .field access name desc signature value =>
    { o with fields := o.fields ++ [{ access, name, desc, signature, value }] }
  | .method access name desc signature exceptions =>
    { o with methods := o.methods ++ [{ access, name, desc, signature, exceptions }] }
  | _ => o

end Outline

/-- The field that a visit describes. -/
structure FieldOutline.Of (p : Pool) (o : FieldOutline) (f : Field) : Prop where
  access : f.access = .ofInt o.access
  name : p.at? f.nameIndex = some (.utf8 o.name)
  desc : p.at? f.descIndex = some (.utf8 o.desc)
  signature : f.signature = o.signature
  value : o.value ≠ .nil → ∃ c, o.value.constant? = some c ∧ p.at? f.valueIndex = some c

def MethodOutline.flags (o : MethodOutline) : Flags :=
  if o.name = Method.constructorName then .ofInt o.access ||| Access.constructor
  else .ofInt o.access

/-- The method that a visit describes. -/
structure MethodOutline.Of (p : Pool) (o : MethodOutline) (m : Method) : Prop where
  access : m.access = o.flags
  name : p.at? m.nameIndex = some (.utf8 o.name)
  desc : p.at? m.descIndex = some (.utf8 o.desc)
  signature : m.signature = o.signature
  exceptions : Forall₂ (fun name i => p.at? i = some (.classRef name)) o.exceptions m.exceptions
  indexed : m.Indexed p

theorem FieldOutline.Of.keep {p q : Pool} (h : p.Extends q) {o : FieldOutline} {f f' : Field}
    (hf : f'.face = f.face) (ho : o.Of p f) : o.Of q f' := by
  simp only [Field.face, Prod.mk.injEq] at hf
  obtain ⟨haccess, hname, hdesc, hsignature, hvalue⟩ := hf
  refine ⟨haccess.trans ho.access, hname ▸ h.at? ho.name, hdesc ▸ h.at? ho.desc,
    hsignature.trans ho.signature, fun hne => ?_⟩
  obtain ⟨c, hc, hat⟩ := ho.value hne
  exact ⟨c, hc, hvalue ▸ h.at? hat⟩

theorem MethodOutline.Of.keep {p q : Pool} (h : p.Extends q) {o : MethodOutline} {m m' : Method}
    (hm : m'.face = m.face) (hi : m'.Indexed q) (ho : o.Of p m) : o.Of q m' := by
  simp only [Method.face, Prod.mk.injEq] at hm
  obtain ⟨haccess, hname, hdesc, hsignature, hexceptions⟩ := hm
  refine ⟨haccess.trans ho.access, hname ▸ h.at? ho.name, hdesc ▸ h.at? ho.desc,
    hsignature.trans ho.signature, ?_, hi⟩
  rw [hexceptions]
  exact ho.exceptions.imp fun _ _ hat => h.at? hat

namespace ClassBody

/-- The members of a class are those of an outline, and so are the parts of its header that may be
left out. -/
structure Bodied (o : Outline) (x : State) : Prop where
  wf : x.1.1.Wf
  signature : o.signature = [] ∧ x.2.signatureIndex = 0 ∨
    x.1.1.at? x.2.signatureIndex = some (.utf8 o.signature)
  super : o.super = [] ∧ x.2.superIndex = 0 ∨
    x.1.1.at? x.2.superIndex = some (.classRef o.super)
  fields : Forall₂ (FieldOutline.Of x.1.1) o.fields x.2.fields.toList
  methods : Forall₂ (fun o id => ∃ m, x.2.methods[id]? = some m ∧
    MethodOutline.Of x.1.1 o m) o.methods x.2.written.toList

/-- A class is the one of an outline. -/
structure Described (o : Outline) (x : State) : Prop extends Bodied o x where
  version : x.1.2.version = o.version
  access : x.2.access = .ofInt o.access
  thisIndex : x.1.1.at? x.2.thisIndex = some (.classRef o.name)
  interfaces : Forall₂ (fun name i => x.1.1.at? i = some (.classRef name)) o.interfaces
    x.2.interfaces

variable {o : Outline} {x y : State}

theorem Described.keep (h : Described o x) (hwf : y.1.1.Wf) (hext : x.1.1.Extends y.1.1)
    (hversion : y.1.2.version = x.1.2.version) (hface : y.2.face = x.2.face)
    (hfields : y.2.fields.toList.map Field.face = x.2.fields.toList.map Field.face)
    (hwritten : y.2.written = x.2.written)
    (hmethods : ∀ (id : MethodId) (m : Method), x.2.methods[id]? = some m → ∃ m' : Method,
      y.2.methods[id]? = some m' ∧ m'.face = m.face ∧ (m.Indexed x.1.1 → m'.Indexed y.1.1)) :
    Described o y := by
  simp only [face, Prod.mk.injEq] at hface
  obtain ⟨haccess, hthis, hsignature, hsuper, hinterfaces⟩ := hface
  refine ⟨⟨hwf, ?_, ?_, ?_, ?_⟩, hversion.trans h.version, haccess.trans h.access,
    hthis ▸ hext.at? h.thisIndex, ?_⟩
  · rw [hsignature]
    exact h.signature.imp_right hext.at?
  · rw [hsuper]
    exact h.super.imp_right hext.at?
  · have hsame : Forall₂ (fun f f' => Field.face f = Field.face f') x.2.fields.toList
        y.2.fields.toList := by
      have heq : Forall₂ (· = ·) (x.2.fields.toList.map Field.face)
          (y.2.fields.toList.map Field.face) := by
        rw [forall₂_eq_eq_eq]
        exact hfields.symm
      rwa [forall₂_map_left_iff, forall₂_map_right_iff] at heq
    exact forall₂_trans h.fields hsame fun _ _ _ _ ho hface => ho.keep hext hface.symm
  · rw [hwritten]
    refine h.methods.imp fun o id ⟨m, hm, ho⟩ => ?_
    obtain ⟨m', hm', hface, hindexed⟩ := hmethods id m hm
    exact ⟨m', hm', ho.keep hext hface (hindexed ho.indexed)⟩
  · rw [hinterfaces]
    exact h.interfaces.imp fun _ _ hat => hext.at? hat

theorem Described.tended (h : Described o x) (hxy : Tended x y) : Described o y := by
  obtain ⟨hwf, hext⟩ := hxy.grows h.wf
  refine h.keep hwf hext hxy.version hxy.face hxy.fields hxy.written fun id m hm => ?_
  obtain ⟨m', hm', hface, hindexed, -⟩ := hxy.methods id m hm
  exact ⟨m', hm', hface, hindexed h.wf⟩

theorem Described.extend {s : Pool × Session} (h : Described o x) (hwf : s.1.Wf)
    (hext : x.1.1.Extends s.1) (hversion : s.2.version = x.1.2.version) : Described o (s, x.2) :=
  h.keep hwf hext hversion rfl rfl rfl fun _ m hm => ⟨m, hm, rfl, fun hi => hi.mono hext rfl⟩

end ClassBody

namespace ClassM

open ClassBody

variable {o : Outline} {x y : State}

theorem ends_classRefs {ts : List Text} {p q : Pool} {is : List Nat} (hp : p.Wf)
    (e : Ends (MethodM.classRefs ts) p is q) :
    q.Wf ∧ p.Extends q ∧ Forall₂ (fun name i => q.at? i = some (.classRef name)) ts is := by
  induction ts generalizing p is with
  | nil =>
    obtain ⟨rfl, rfl⟩ := e.pure
    exact ⟨hp, .refl p, .nil⟩
  | cons t ts ih =>
    obtain ⟨i, p₁, h₁, e⟩ := e.bind
    obtain ⟨is', p₂, h₂, e⟩ := e.bind
    obtain ⟨rfl, rfl⟩ := e.pure
    obtain ⟨hreg, hat⟩ := PoolM.interns_classRef t _ _ _ hp h₁
    obtain ⟨hwf, hext, hrest⟩ := ih hreg.wf h₂
    exact ⟨hwf, hreg.extend.trans hext, .cons (hext.at? hat) hrest⟩

theorem ends_optional {β : Type} {t : Text} {c : Constant} {reg : PoolM Nat}
    (hreg : PoolM.Interns c reg) {place : Nat → ClassBody → ClassBody} {k : ClassM β} {b : β}
    (hwf : x.1.1.Wf)
    (e : Ends (if t.isEmpty then k else do
      let i ← (liftM reg : ClassM Nat)
      modify (place i)
      k) x b y) :
    ∃ w : State, w.1.1.Wf ∧ x.1.1.Extends w.1.1 ∧ w.1.2 = x.1.2 ∧ (t = [] ∧ w.2 = x.2 ∨
      t ≠ [] ∧ ∃ i, w.2 = place i x.2 ∧ w.1.1.at? i = some c) ∧ Ends k w b y := by
  split at e
  next hempty =>
    exact ⟨x, hwf, .refl _, rfl, .inl ⟨by simpa using hempty, rfl⟩, e⟩
  next hempty =>
    obtain ⟨i, w, h, e⟩ := e.bind
    obtain ⟨h, hw⟩ := ends_pool.1 h
    obtain ⟨_, v, hplace, e⟩ := e.bind
    obtain ⟨hr, hat⟩ := hreg _ _ _ hwf h
    have hv : v = ((w.1.1, x.1.2), place i x.2) := by
      rw [← hplace.modify, hw]
    rw [hv] at e
    exact ⟨((w.1.1, x.1.2), place i x.2), hr.wf, hr.extend, rfl,
      .inr ⟨by simpa using hempty, i, rfl, hat⟩, e⟩

theorem described_header {version access : Int} {name signature super : Text}
    {interfaces : List Text} (h : Bodied o x) (hfail : y.1.1.failure = none)
    (e : Ends (header version access name signature super interfaces) x () y) :
    Described (o.take (.header version access name signature super interfaces)) y := by
  obtain ⟨live, w, hlive, e⟩ := e.bind
  rcases ends_isLive hlive with ⟨rfl, rfl⟩ | ⟨rfl, hw⟩
  · dsimp only at e
    rw [if_pos rfl] at e
    split at e
    · obtain ⟨hbad, -⟩ := ends_pool.1 e
      rw [← PoolM.ends_fail.1 hbad] at hfail
      exact absurd hfail (Pool.recordFailure_ne_none _ _)
    · obtain ⟨_, x₁, h₁, e⟩ := e.bind
      obtain ⟨i, x₂, h₂, e⟩ := e.bind
      obtain ⟨_, x₃, h₃, e⟩ := e.bind
      have hx₁ : x₁ = ((x.1.1, { x.1.2 with version, thisName := name }), x.2) := by
        obtain ⟨hs, hc⟩ := ends_modifyThe_lift.1 h₁
        exact Prod.ext hs.modify.symm hc.symm
      obtain ⟨h₂, hx₂⟩ := ends_pool.1 h₂
      rw [hx₁] at h₂ hx₂
      obtain ⟨hthis, hat⟩ := PoolM.interns_classRef name _ _ _ h.wf h₂
      have hx₃ : x₃ = ((x₂.1.1, { x.1.2 with version, thisName := name }),
          { x.2 with access := .ofInt access, thisIndex := i }) := by
        rw [← h₃.modify, hx₂]
      have hwf₃ : x₃.1.1.Wf := by rw [hx₃]; exact hthis.wf
      obtain ⟨x₄, hwf₄, hext₄, hs₄, hsignature, e⟩ :=
        ends_optional (PoolM.interns_utf8 signature) hwf₃ e
      obtain ⟨x₅, hwf₅, hext₅, hs₅, hsuper, e⟩ :=
        ends_optional (PoolM.interns_classRef super) hwf₄ e
      obtain ⟨is, x₆, h₆, e⟩ := e.bind
      obtain ⟨h₆, hx₆⟩ := ends_pool.1 h₆
      obtain ⟨hwf₆, hext₆, his⟩ := ends_classRefs hwf₅ h₆
      have hy : y = ((x₆.1.1, x₅.1.2), { x₅.2 with interfaces := is }) := by
        rw [← e.modify, hx₆]
      have hext : x₃.1.1.Extends x₆.1.1 := hext₄.trans (hext₅.trans hext₆)
      have hext₀ : x.1.1.Extends x₆.1.1 := hthis.extend.trans (by rwa [hx₃] at hext)
      -- an index that the header leaves out is the one of an earlier header
      obtain ⟨j, hx₄, hj⟩ : ∃ j, x₄.2 = { x₃.2 with signatureIndex := j } ∧
          ((if signature.isEmpty then o.signature else signature) = [] ∧ j = 0 ∨
            x₆.1.1.at? j =
              some (.utf8 (if signature.isEmpty then o.signature else signature))) := by
        rcases hsignature with ⟨rfl, hx₄⟩ | ⟨hne, j, hx₄, hj⟩
        · refine ⟨x.2.signatureIndex, by rw [hx₄, hx₃], h.signature.imp_right hext₀.at?⟩
        · refine ⟨j, hx₄, .inr ?_⟩
          rw [if_neg (by simpa using hne)]
          exact hext₅.trans hext₆ |>.at? hj
      obtain ⟨k, hx₅, hk⟩ : ∃ k, x₅.2 = { x₄.2 with superIndex := k } ∧
          ((if super.isEmpty then o.super else super) = [] ∧ k = 0 ∨
            x₆.1.1.at? k = some (.classRef (if super.isEmpty then o.super else super))) := by
        rcases hsuper with ⟨rfl, hx₅⟩ | ⟨hne, k, hx₅, hk⟩
        · refine ⟨x.2.superIndex, by rw [hx₅, hx₄, hx₃], h.super.imp_right hext₀.at?⟩
        · refine ⟨k, hx₅, .inr ?_⟩
          rw [if_neg (by simpa using hne)]
          exact hext₆.at? hk
      have hbody : y.2 = { x.2 with
          access := .ofInt access, thisIndex := i, signatureIndex := j, superIndex := k
          interfaces := is } := by
        rw [hy, hx₅, hx₄, hx₃]
      have hpool : y.1.1 = x₆.1.1 := by rw [hy]
      have hversion : y.1.2.version = version := by rw [hy, hs₅, hs₄, hx₃]
      constructor
      · constructor
        · rwa [hpool]
        · rwa [hpool, hbody]
        · rwa [hpool, hbody]
        · rw [hpool, hbody]
          exact h.fields.imp fun _ _ ho => ho.keep hext₀ rfl
        · rw [hpool, hbody]
          exact h.methods.imp fun _ _ ⟨m, hm, ho⟩ =>
            ⟨m, hm, ho.keep hext₀ rfl (ho.indexed.mono hext₀ rfl)⟩
      · exact hversion
      · rw [hbody]
        rfl
      · rw [hpool, hbody]
        exact hext.at? (by rwa [hx₃])
      · rw [hpool, hbody]
        exact his
  · rw [if_neg (by simp)] at e
    obtain ⟨-, rfl⟩ := e.pure
    exact absurd hfail hw

theorem outlined_newField {access : Int} {name desc signature : Text} {value : Value}
    {id : Option FieldId} (hwf : x.1.1.Wf) (hfail : y.1.1.failure = none)
    (e : Ends (newField access name desc signature value) x id y) :
    y.1.1.Wf ∧ x.1.1.Extends y.1.1 ∧ ∃ f,
      FieldOutline.Of y.1.1 { access, name, desc, signature, value } f ∧
      y = ((y.1.1, x.1.2), { x.2 with fields := x.2.fields.push f }) := by
  obtain ⟨-, hfailed⟩ | ⟨i, p₁, j, p₂, k, h₁, h₂, hlater, -, hvalue, hy⟩ := ends_newField e
  · exact absurd hfail hfailed
  obtain ⟨hname, hat₁⟩ := PoolM.interns_utf8 name _ _ _ hwf h₁
  obtain ⟨hdesc, hat₂⟩ := PoolM.interns_utf8 desc _ _ _ hname.wf h₂
  obtain ⟨hwf', hext⟩ := hlater hdesc.wf
  refine ⟨hwf', (hname.extend.trans hdesc.extend).trans hext, _,
    ⟨rfl, hext.at? (hdesc.extend.at? hat₁), hext.at? hat₂, rfl, fun hne => ?_⟩, hy⟩
  obtain ⟨p₃, hp₃, hends⟩ := hvalue hne
  exact (PoolM.ends_value (hp₃ hdesc.wf).1 hends).2 hfail

theorem outlined_create {compute : Compute} {access : Int} {name desc signature : Text}
    {exceptions : List Text} {s t : Pool × Session} {m : Method} (hwf : s.1.Wf)
    (e : Ends (Method.create compute access name desc signature exceptions) s m t) :
    t.1.Wf ∧ s.1.Extends t.1 ∧ t.2.version = s.2.version ∧
      MethodOutline.Of t.1 { access, name, desc, signature, exceptions } m := by
  obtain ⟨i, s₁, h₁, e⟩ := e.bind
  obtain ⟨j, s₂, h₂, e⟩ := e.bind
  obtain ⟨thrown, s₃, h₃, e⟩ := e.bind
  obtain ⟨⟨_, m'⟩, s₄, h₄, e⟩ := e.bind
  obtain ⟨rfl, rfl⟩ := e.pure
  obtain ⟨h₁, hs₁⟩ := h₁.lift
  obtain ⟨h₂, hs₂⟩ := h₂.lift
  obtain ⟨h₃, hs₃⟩ := h₃.lift
  obtain ⟨hname, hat₁⟩ := PoolM.interns_utf8 name _ _ _ hwf h₁
  obtain ⟨hdesc, hat₂⟩ := PoolM.interns_utf8 desc _ _ _ hname.wf h₂
  obtain ⟨hwf₃, hext₃, hthrown⟩ := ends_classRefs hdesc.wf h₃
  have hopen : Method.Steady _ _ := Keeps.run _ _ _ (ends_run.1 h₄)
  obtain ⟨hwf₄, hext₄⟩ := hopen.grows hwf₃
  have hindexed := hopen.indexed hwf₃ ⟨by simp, by simp, by simp⟩
  have hext : s₂.1.Extends s₄.1 := hext₃.trans hext₄
  have hversion := hopen.tended.version
  refine ⟨hwf₄, (hname.extend.trans hdesc.extend).trans hext, ?_, ?_⟩
  · rw [hversion, ← hs₃, ← hs₂, ← hs₁]
  · have hface := hopen.tended.face
    simp only [Method.face, Prod.mk.injEq] at hface
    obtain ⟨hflags, hi, hj, hsignature, hexceptions⟩ := hface
    refine ⟨hflags, hi ▸ hext.at? (hdesc.extend.at? hat₁), hj ▸ hext.at? hat₂, hsignature, ?_,
      hindexed⟩
    rw [hexceptions]
    exact hthrown.imp fun _ _ hat => hext₄.at? hat

end ClassM

namespace Visit

open ClassBody ClassM

variable {o : Outline} {x y : State}

theorem grows_run {v : Visit} (hcounted : v.Counted) (e : Ends v.run x () y) :
    x.1.1.Grows y.1.1 := by
  cases v with
  | header => exact ((beside_header ..).run _ _ _ e).grows
  | field =>
    obtain ⟨_, e⟩ := ends_discard.1 e
    exact (e.keeps : Beside x y).grows
  | method access name desc signature exceptions =>
    obtain ⟨_, e⟩ := ends_discard.1 e
    exact grows_takeEvent (o := none) (e := .method access name desc signature exceptions)
      (fun _ h => nomatch h) e
  | _ =>
    refine ((tended_run ?_ hcounted).run _ _ _ e).grows
    exact trivial

theorem described_run {v : Visit} (hcounted : v.Counted) (h : Described o x)
    (hfail : y.1.1.failure = none) (e : Ends v.run x () y) : Described (o.take v) y := by
  cases v with
  | header => exact described_header h.toBodied hfail e
  | field access name desc signature value =>
    obtain ⟨_, e⟩ := ends_discard.1 e
    obtain ⟨hwf, hext, f, hf, hy⟩ := outlined_newField h.wf hfail e
    have h' : Described o ((y.1.1, x.1.2), x.2) := h.extend hwf hext rfl
    rw [hy]
    exact { h' with
      fields := by
        simp only [Outline.take, Array.toList_push]
        exact rel_append h'.fields (.cons hf .nil) }
  | method access name desc signature exceptions =>
    obtain ⟨_, e⟩ := ends_discard.1 e
    obtain ⟨-, m, hm, hy⟩ := (ends_newMethod e).resolve_left fun h => h.2 hfail
    obtain ⟨hwf, hext, hversion, hof⟩ := outlined_create h.wf hm
    have h' : Described o (y.1, x.2) := h.extend hwf hext hversion
    obtain ⟨y₁, y₂⟩ := y
    obtain rfl : y₂ = _ := hy
    exact { h' with
      methods := by
        simp only [Outline.take, ClassBody.added, Array.toList_push]
        refine rel_append (h'.methods.imp fun _ _ h => ?_) ?_
        · obtain ⟨m', hm', ho⟩ := h
          exact ⟨m', getElem?_push_of_some hm' m, ho⟩
        exact .cons ⟨m, ClassBody.getElem?_added .., hof⟩ .nil }
  | _ =>
    refine h.tended ((tended_run ?_ hcounted).run _ _ _ e)
    exact trivial

theorem grows_runAll {vs : List Visit} (hcounted : ∀ v ∈ vs, v.Counted)
    (e : Ends (runAll vs) x () y) : x.1.1.Grows y.1.1 := by
  induction vs generalizing x with
  | nil =>
    obtain ⟨-, rfl⟩ := e.pure
    exact Steps.refl _
  | cons v vs ih =>
    obtain ⟨_, w, h, e⟩ := e.bind
    exact Steps.trans (grows_run (hcounted v mem_cons_self) h)
      (ih (fun v hv => hcounted v (mem_cons_of_mem _ hv)) e)

/-- A class that visits describe stays described by those that follow. -/
theorem described_runAll {vs : List Visit} (hcounted : ∀ v ∈ vs, v.Counted) (h : Described o x)
    (hfail : y.1.1.failure = none) (e : Ends (runAll vs) x () y) :
    Described (vs.foldl Outline.take o) y := by
  induction vs generalizing o x with
  | nil =>
    obtain ⟨-, rfl⟩ := e.pure
    exact h
  | cons v vs ih =>
    obtain ⟨_, w, hv, e⟩ := e.bind
    have hrest : ∀ v ∈ vs, v.Counted := fun v hv => hcounted v (mem_cons_of_mem _ hv)
    have hcounted' := hcounted v mem_cons_self
    have hfail' : w.1.1.failure = none :=
      (grows_runAll hrest e (grows_run hcounted' hv h.wf).1).2.no_failure hfail
    exact ih hrest (described_run hcounted' h hfail' hv) e

end Visit

/-! ## Methods that are written again -/

namespace ClassBody

variable {o : Outline} {x y z : State}

theorem methodOf_eq {c : ClassBody} {id : MethodId} {m : Method} (h : c.methods[id]? = some m) :
    c.methodOf id = m := by
  rw [methodOf, h, Option.getD_some]

theorem Described.replaced {i : Nat} {m : Method} {t : Pool × Session} (h : Described o y)
    (e : Ends (y.2.methodAt i).widened y.1 m t) : Described o (t, y.2.replaced i m) := by
  obtain ⟨hgrows, hsetting, hheader, -, hindexed⟩ := Method.steady_widened e
  obtain ⟨hwf, hext⟩ := hgrows h.wf
  have hversion : t.2.version = y.1.2.version :=
    (congrArg Session.version hsetting : t.2.setting.version = y.1.2.setting.version)
  have hface : m.face = (y.2.methodAt i).face :=
    (congrArg Method.face hheader : m.header.face = (y.2.methodAt i).header.face)
  have h' : Described o (t, y.2) := h.extend hwf hext hversion
  exact { h' with
    methods := by
      rw [ClassBody.replaced, Array.toList_setIfInBounds]
      refine forall₂_set h'.methods ?_ ?_
      · rintro o id ⟨m', hm', ho⟩
        exact ⟨m', getElem?_push_of_some hm' m, ho⟩
      · rintro o id hid ⟨m', hm', ho⟩
        refine ⟨m, Array.getElem?_push_size, ?_⟩
        have hat : y.2.methodAt i = m' := by
          rw [Array.getElem?_toList] at hid
          rw [methodAt, hid, Option.getD_some, hm', Option.getD_some]
        exact ho.keep (.refl _) (hat ▸ hface) (hindexed h.wf) }

end ClassBody

namespace ClassM

open ClassBody

variable {o : Outline} {x y z : State}

theorem described_widenAll {fuel pass : Nat} (h : Described o y) (hfail : z.1.1.failure = none)
    (e : Ends (widenAll fuel pass) y () z) : Described o z :=
  preserved_widenAll (P := fun x => x.1.1.failure = none → Described o x)
    (fun _ _ hfailed _ hfail => absurd hfail hfailed)
    (fun hm hy hfail => (hy ((Method.steady_widened hm).1.onward.no_failure hfail)).replaced hm)
    (fun _ => h) e hfail

/-- Rewriting its methods at the end does not change what a class is described by. -/
theorem Serialized.described {out : Buffer} {n : Int} {file : ClassFile}
    (hbytes : Serialized x out y z n file) (hx : x.2.Prepared x.1.1) (h : Described o x) :
    Described o z := by
  have henters := hbytes.enters hx h.wf
  have hy : Described o y := described_widenAll h (hbytes.no_failure hx).2 hbytes.widened
  rw [hbytes.rest]
  exact hy.extend henters.wf henters.extend rfl

end ClassM

/-! ## Class files -/

namespace ClassBody

variable {o : Outline} {z : State}

theorem Described.indexed (h : Described o z) : z.2.Indexed z.1.1 where
  thisIndex := ⟨_, h.thisIndex⟩
  superIndex := h.super.imp And.right fun hat => ⟨_, hat⟩
  interfaces i hi := by
    obtain ⟨name, -, hat⟩ := exists_of_forall₂ h.interfaces hi
    exact ⟨name, hat⟩
  fields f hf := by
    obtain ⟨o, -, ho⟩ := exists_of_forall₂ h.fields (Array.mem_toList_iff.2 hf)
    exact ⟨⟨_, ho.name⟩, ⟨_, ho.desc⟩⟩
  methods id hid := by
    obtain ⟨o, -, m, hm, ho⟩ := exists_of_forall₂ h.methods (Array.mem_toList_iff.2 hid)
    rw [methodOf_eq hm]
    exact ⟨⟨_, ho.name⟩, ⟨_, ho.desc⟩, ho.indexed⟩

end ClassBody

theorem Format.Table.Means.lt_length {t : Table} {i : Nat} {c : Constant} (h : t.Means i c) :
    i < t.length := by
  have hat : ∃ e, t.at? i = some e := by cases h <;> exact ⟨_, by assumption⟩
  obtain ⟨e, he⟩ := hat
  by_contra hi
  rw [Table.at?, getElem?_eq_none (Nat.not_lt.1 hi)] at he
  cases he

/-- The signature among the attributes of an element is a given one. -/
def SignatureShown (t : Table) (signature : Text) (as : List AttributeInfo) : Prop :=
  signature ≠ [] → ∃ a ∈ as, t.Means a.name (.utf8 "Signature") ∧
    ∃ i : Nat, a.content = bytes16 i ∧ t.Means i (.utf8 signature)

/-- An element that is deprecated or synthetic is marked among its attributes.  From version 49 on a
synthetic one is marked only if its flags ask for it. -/
structure MarksShown (t : Table) (f : Flags) (major : Int) (as : List AttributeInfo) : Prop where
  deprecated : f.toNat.testBit 17 → ∃ a ∈ as, t.Means a.name (.utf8 "Deprecated") ∧ a.content = []
  synthetic : f.toNat.testBit 18 ∨ f.toNat.testBit 12 ∧ major < 49 →
    ∃ a ∈ as, t.Means a.name (.utf8 "Synthetic") ∧ a.content = []

structure FieldOutline.Shown (t : Table) (major : Int) (o : FieldOutline) (m : MemberInfo) :
    Prop where
  access : Access.Masked (.ofInt o.access) m.access
  name : t.Means m.name (.utf8 o.name)
  desc : t.Means m.desc (.utf8 o.desc)
  signature : SignatureShown t o.signature m.attributes
  value : o.value ≠ .nil → ∃ c, o.value.constant? = some c ∧ ∃ a ∈ m.attributes,
    t.Means a.name (.utf8 "ConstantValue") ∧ ∃ i : Nat, a.content = bytes16 i ∧ t.Means i c
  marks : MarksShown t (.ofInt o.access) major m.attributes

structure MethodOutline.Shown (t : Table) (major : Int) (o : MethodOutline) (m : MemberInfo) :
    Prop where
  access : Access.Masked o.flags m.access
  name : t.Means m.name (.utf8 o.name)
  desc : t.Means m.desc (.utf8 o.desc)
  signature : SignatureShown t o.signature m.attributes
  marks : MarksShown t o.flags major m.attributes
  exceptions : o.exceptions ≠ [] → ∃ a ∈ m.attributes,
    t.Means a.name (.utf8 "Exceptions") ∧ ∃ is : List Nat,
      a.content = bytes16 is.length ++ (is.flatMap fun i : Nat => bytes16 i) ∧
      Forall₂ (fun name i => t.Means i (.classRef name)) o.exceptions is

/-- A class file is the one of an outline. -/
structure Outline.Shown (o : Outline) (f : ClassInfo) : Prop where
  minor : (f.minor : Int) = o.version / 65536 % 65536
  major : (f.major : Int) = o.version % 65536
  access : Access.Masked (.ofInt o.access) f.access
  thisIndex : f.pool.Means f.thisIndex (.classRef o.name)
  superIndex : o.super = [] ∧ f.superIndex = 0 ∨ f.pool.Means f.superIndex (.classRef o.super)
  interfaces : Forall₂ (fun name i => f.pool.Means i (.classRef name)) o.interfaces f.interfaces
  fields : Forall₂ (FieldOutline.Shown f.pool f.major) o.fields f.fields
  methods : Forall₂ (MethodOutline.Shown f.pool f.major) o.methods f.methods
  signature : SignatureShown f.pool o.signature f.attributes
  marks : MarksShown f.pool (.ofInt o.access) f.major f.attributes
  bounded : ∀ i c, f.pool.Means i c → i < f.pool.length

theorem exists_attribute {t : Table} {parts : List (List Part)} {as : List AttributeInfo}
    (h : Forall₂ (Part.Stands t) parts.flatten as) (wanted : Bool) (name : String)
    (content : Content) (hparts : Part.when wanted name content ∈ parts) (hwanted : wanted = true) :
    ∃ a ∈ as, t.Means a.name (.utf8 (Text.ofString name)) ∧ content.Stands t a.content := by
  have hmem : ⟨Text.ofString name, content⟩ ∈ parts.flatten :=
    mem_flatten.2 ⟨_, hparts, by simp [Part.when, hwanted]⟩
  exact exists_of_forall₂_left h hmem

theorem marksShown {t : Table} {parts : List (List Part)} {as : List AttributeInfo} {f : Flags}
    {major : Int} (h : Forall₂ (Part.Stands t) parts.flatten as)
    (hdeprecated : Part.when (f.has Access.deprecated_) "Deprecated" (.bytes []) ∈ parts)
    (hsynthetic : Part.when (Access.wantsSyntheticAttribute f major) "Synthetic" (.bytes []) ∈
      parts) : MarksShown t f major as where
  deprecated hbit := exists_attribute h _ _ _ hdeprecated
    ((Access.has_of_twoPow f rfl (by decide)).trans hbit)
  synthetic hbits := by
    have hplain : f.has Access.synthetic = f.toNat.testBit 12 :=
      Access.has_of_twoPow f rfl (by decide)
    have hasked : f.has Access.syntheticAttribute = f.toNat.testBit 18 :=
      Access.has_of_twoPow f rfl (by decide)
    refine exists_attribute h _ _ _ hsynthetic ?_
    rw [Access.wantsSyntheticAttribute, hplain, hasked]
    rcases hbits with hbit | ⟨hbit, hmajor⟩
    · simp [hbit]
    · simp [hbit, hmajor]

namespace ClassBody

variable {o : Outline} {z : State} {f : ClassInfo}

theorem shown_field {q : Pool} {t : Table} (hq : q.Wf) (ht : Shows t q) {o : FieldOutline} {field : Field}
    {major : Int} {store : AnnotationStore} {m : MemberInfo} (ho : o.Of q field)
    (hm : MemberStands t field.access field.nameIndex field.descIndex (field.parts major store) m) :
    o.Shown t major m where
  access := ho.access ▸ hm.access
  name := hm.name ▸ ht.means _ _ ho.name
  desc := hm.desc ▸ ht.means _ _ ho.desc
  signature := by
    rw [← ho.signature]
    exact fun hne => exists_attribute hm.attributes (!field.signature.isEmpty) "Signature"
      (.text field.signature) (by simp) (by simpa using hne)
  value := by
    intro hne
    obtain ⟨c, hc, hat⟩ := ho.value hne
    have hpos := hq.at?_pos hat
    obtain ⟨a, ha, hname, hcontent⟩ := exists_attribute hm.attributes _ _ _ mem_cons_self
      (bne_iff_ne.2 (Nat.ne_of_gt hpos))
    exact ⟨c, hc, a, ha, hname, field.valueIndex, hcontent, ht.means _ _ hat⟩
  marks := ho.access ▸ marksShown hm.attributes (by simp) (by simp)

theorem shown_method {q : Pool} {t : Table} (ht : Shows t q) {o : MethodOutline} {method : Method}
    {major : Int} {position : LabelId → Nat} {store : AnnotationStore} {m : MemberInfo}
    (ho : o.Of q method)
    (hm : MemberStands t method.access method.nameIndex method.descIndex
      (method.parts major position store) m) :
    o.Shown t major m where
  access := ho.access ▸ hm.access
  name := hm.name ▸ ht.means _ _ ho.name
  desc := hm.desc ▸ ht.means _ _ ho.desc
  signature := by
    rw [← ho.signature]
    exact fun hne => exists_attribute hm.attributes (!method.signature.isEmpty) "Signature"
      (.text method.signature) (by simp) (by simpa using hne)
  marks := ho.access ▸ marksShown hm.attributes (by simp) (by simp)
  exceptions := by
    intro hne
    have hwhen : (!method.exceptions.isEmpty) = true := by
      have hlength := ho.exceptions.length_eq
      cases hes : method.exceptions with
      | nil =>
        rw [hes] at hlength
        exact absurd (length_eq_zero_iff.1 hlength) hne
      | cons => rfl
    obtain ⟨a, ha, hname, hcontent⟩ := exists_attribute hm.attributes _ _ _
      (mem_cons_of_mem _ mem_cons_self) hwhen
    exact ⟨a, ha, hname, method.exceptions, hcontent,
      ho.exceptions.imp fun _ _ hat => ht.means _ _ hat⟩

theorem Described.shown (h : Described o z) (hf : z.2.Stands z.1.2 z.1.1 f) : o.Shown f where
  minor := h.version ▸ hf.minor
  major := h.version ▸ hf.major
  access := h.access ▸ hf.access
  thisIndex := hf.thisIndex ▸ hf.pool.means _ _ h.thisIndex
  superIndex := by
    rw [hf.superIndex]
    exact h.super.imp_right (hf.pool.means _ _)
  interfaces := by
    rw [hf.interfaces]
    exact h.interfaces.imp fun _ _ hat => hf.pool.means _ _ hat
  fields := hf.major ▸ forall₂_trans h.fields hf.fields fun _ _ _ _ ho hm =>
    shown_field h.wf hf.pool ho hm
  methods := hf.major ▸ forall₂_trans h.methods hf.methods fun _ _ _ _ ⟨m, hm, ho⟩ hstands => by
    rw [methodOf_eq hm] at hstands
    exact shown_method hf.pool ho hstands
  signature := by
    intro hne
    have hat := h.signature.resolve_left fun hempty => hne hempty.1
    have hwhen : (z.2.signatureIndex != 0) = true := by
      have hpos := h.wf.at?_pos hat
      simp
      omega
    obtain ⟨a, ha, hname, hcontent⟩ := exists_attribute hf.attributes _ _ _
      (mem_cons_of_mem _ mem_cons_self) hwhen
    exact ⟨a, ha, hname, z.2.signatureIndex, hcontent, hf.pool.means _ _ hat⟩
  marks := by
    rw [← h.access, hf.major, ← Session.major]
    exact marksShown hf.attributes (by simp) (by simp)
  bounded _ _ hmeans := hmeans.lt_length

theorem bodied_create (compute : Compute) (options : Options) :
    Bodied {} (((create compute options).pool, (create compute options).session),
      (create compute options).body) := by
  obtain ⟨hwf, -, hbody⟩ := CheckedClass.start_create compute options
  rw [hbody]
  exact ⟨hwf, .inl ⟨rfl, rfl⟩, .inl ⟨rfl, rfl⟩, .nil, .nil⟩

end ClassBody

/-- The class file of a sequence of visits that begins with a header.  A reader of class files takes
all its bytes; what it finds is what was recorded, attribute by attribute, and what the visits
describe. -/
theorem Visit.classFile_of_runAll {compute : Compute} {options : Options} {version access : Int}
    {name signature super : Text} {interfaces : List Text} {visits : List Visit}
    {x z : ClassBody.State} {out : Buffer}
    (hcounted : ∀ v ∈ visits, v.Counted)
    (hvisits : Ends (runAll (.header version access name signature super interfaces :: visits))
      (((create compute options).pool, (create compute options).session),
        (create compute options).body) () x)
    (hbytes : Ends ClassM.toBytes x (.ok out) z) (hfits : z.2.Fits z.1.2 z.1.1) :
    ∃ f, classInfo.run out.toList = some (f, []) ∧ z.2.Stands z.1.2 z.1.1 f ∧
      Outline.Shown ((header version access name signature super interfaces :: visits).foldl
        Outline.take {}) f := by
  obtain ⟨_, w, hheader, hrest⟩ := ends_bind.1 hvisits
  have hstart := ClassBody.bodied_create compute options
  have hprepared : x.2.Prepared x.1.1 :=
    ((readies_runAll _).run _ _ _ hvisits).prepared (Call.prepared_create compute options)
  obtain ⟨-, -, ⟨_, ⟨⟩, -⟩ | ⟨_, y, n, file, ⟨⟩, hserialized⟩⟩ :=
    ClassM.ends_toBytes hprepared hbytes
  have hfail := (hserialized.no_failure hprepared).1
  have hwf : w.1.1.Wf := ((ClassM.beside_header ..).run _ _ _ hheader).grows hstart.wf |>.1
  have hfail' : w.1.1.failure = none := (grows_runAll hcounted hrest hwf).2.no_failure hfail
  have hx := described_runAll hcounted (ClassM.described_header hstart hfail' hheader) hfail hrest
  have hz := hserialized.described hprepared hx
  obtain ⟨f, hread, hstands⟩ := hserialized.reads hprepared hx.wf hz.indexed hfits
  exact ⟨f, hread, hstands, hz.shown hstands⟩

def Visit.sample : List Visit :=
  [.field 8 "n" "I" "TT;" (.int32 7), .method 0x61001 "m" "()V" "" ["E"], .beginCode 0,
    .code 0 (.instruction (.plain 177)), .code 0 (.maxs 0 1), .finish (.method 0)]

/-- A class with a field and with a deprecated method that has code: the file shows what was
recorded. -/
theorem Visit.classFile_of_sample :
    ∃ x z out f, Ends (runAll
        (.header 52 33 "A" "" "java/lang/Object" [] :: sample))
      (((create .nothing {}).pool, (create .nothing {}).session),
        (create .nothing {}).body) () x ∧ Ends ClassM.toBytes x (.ok out) z ∧
      z.2.Fits z.1.2 z.1.1 ∧ classInfo.run out.toList = some (f, []) ∧
      z.2.Stands z.1.2 z.1.1 f ∧ Outline.Shown ((header 52 33 "A" "" "java/lang/Object" [] ::
        sample).foldl Outline.take {}) f := by
  have hrun : (Stateful.outcome (do
        runAll (.header 52 33 "A" "" "java/lang/Object" [] :: sample)
        ClassM.toBytes)
      (((create .nothing {}).pool, (create .nothing {}).session),
        (create .nothing {}).body)).map (fun r =>
          (r.1.toBool, decide (r.2.2.Fits r.2.1.2 r.2.1.1))) = .ok (true, true) := by
    decide +kernel
  obtain ⟨result, z, hends, hz⟩ := exists_ends_of_map hrun
  obtain ⟨_, x, hvisits, hbytes⟩ := ends_bind.1 hends
  simp only [Prod.mk.injEq, decide_eq_true_eq] at hz
  obtain ⟨hok, hfits⟩ := hz
  cases result with
  | error e => cases hok
  | ok out =>
    have hcounted : ∀ v ∈ sample, v.Counted := by
      simp [sample, Visit.Counted, CodeEvent.Counted, Instruction.Counted]
    obtain ⟨f, hread, hstands, hshown⟩ := classFile_of_runAll hcounted hvisits hbytes hfits
    exact ⟨x, z, out, f, hvisits, hbytes, hfits, hread, hstands, hshown⟩

end ClassAssembler
