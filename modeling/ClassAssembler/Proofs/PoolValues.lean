import Mathlib
import ClassAssembler.Proofs.PoolDecoding
import ClassAssembler.Proofs.PoolOnward

/-!
# Constants that are read back

Code that is written again takes its constants from the pool it was written with.  A constant
becomes a value again, and a call site becomes a handle and arguments, which are found by walking
over the bootstrap methods before its own.  Registering what was read gives the entry it was read
from and leaves the pool as it is (`Registration.restores_runAll`), so that reading code never makes
its pool grow.
-/

namespace ClassAssembler

/-! ## Constants with a value -/

def Constant.isValue : Constant → Bool
  | integer _ | float _ | long _ | double _ | string _ | classRef _ | methodType _
  | methodHandle .. => true
  | _ => false

theorem Value.isValue_of_constant? {v : Value} {c : Constant} (h : v.constant? = some c) :
    c.isValue := by
  cases v with
  | type t =>
    obtain ⟨sort, desc⟩ := t
    cases sort with
    | object =>
      obtain ⟨name, -, rfl⟩ := Option.map_eq_some_iff.1 h
      rfl
    | _ =>
      obtain rfl := Option.some.inj h
      rfl
  | handle h' =>
    rw [constant?] at h
    split at h
    · obtain rfl := Option.some.inj h
      rfl
    · cases h
  | nil | uint8 | uint64 | bytes | int8s | bools | int16s | chars | int32s | int64s
  | float32s | float64s | strings => cases h
  | _ =>
    obtain rfl := Option.some.inj h
    rfl

namespace PoolM

open Pool

variable {slack : Slack} {p : Pool} {i : Nat} {c : Constant}

theorem ends_intern_of_at? (hp : p.Wf slack) (h : p.at? i = some c) (write : PoolM Unit) :
    Ends (intern c write) p i p := by
  simp only [intern, index?, ends_bind, ends_pool_get, ends_pure]
  exact ⟨_, _, ⟨_, _, ⟨rfl, rfl⟩, (hp.index c i).2 h, rfl⟩, by simp⟩

theorem ends_handleEntry_of_at? (hp : p.Wf slack) {h : Handle} (hkind : isHandleKind h.kind)
    (hat : p.at? i = some (handleConstant h)) : Ends (handleEntry h) p (i, handleConstant h) p := by
  have hadmit : Ends (admitHandle h) p h p := by
    have hnot : ¬ (h.kind < Handle.getField ∨ Handle.invokeInterface < h.kind) := by
      rintro (hlt | hlt)
      · exact absurd hkind.1 (Int.not_le.2 hlt)
      · exact absurd hkind.2 (Int.not_le.2 hlt)
    rw [admitHandle, if_neg hnot]
    exact ends_pure.2 ⟨rfl, rfl⟩
  simp only [handleEntry, ends_bind, ends_pure]
  exact ⟨h, p, hadmit, i, p, ends_intern_of_at? hp hat _, rfl, rfl⟩

theorem ends_valueEntry_valueOf (hp : p.Wf { counted := True }) (hat : p.at? i = some c)
    (hc : c.isValue) : Ends (valueEntry (valueOf c)) p (some (i, c)) p := by
  -- all kinds but classes and handles are interned as they are
  have hsome {x : PoolM Nat} (hx : Ends x p i p) :
      Ends (do return some (← x, c) : PoolM (Option (Nat × Constant))) p (some (i, c)) p := by
    simp only [ends_bind, ends_pure]
    exact ⟨i, p, hx, rfl, rfl⟩
  cases c with
  | integer v =>
    have hv : Int32.ofInt v.toInt = v := Int32.ofInt_toInt v
    simp only [valueOf, valueEntry, hv]
    exact hsome (ends_intern_of_at? hp hat _)
  | float | long | double | string | methodType => exact hsome (ends_intern_of_at? hp hat _)
  | classRef name =>
    have hknown := hsome (ends_intern_of_at? hp hat _ : Ends (classRef name) p i p)
    by_cases hhead : name.head? = some JavaType.bracket
    · have hof : JavaType.ofName name = ⟨.array, name⟩ := if_pos hhead
      simp only [valueOf, valueEntry, hof]
      exact hknown
    · obtain ⟨hsort, hname⟩ := JavaType.internalName_ofName name hhead
      simp only [valueOf, valueEntry, hsort, hname]
      exact hknown
  | methodHandle kind owner name desc ofInterface =>
    obtain ⟨hmin, hmax⟩ : 1 ≤ kind ∧ kind ≤ 9 := hp.admitted hat
    have hkind : isHandleKind (kind : Int) := by
      constructor
      · exact Int.ofNat_le.2 hmin
      · exact Int.ofNat_le.2 hmax
    have hentry := ends_handleEntry_of_at? hp (h := ⟨kind, owner, name, desc, ofInterface⟩) hkind
      hat
    simp only [valueOf, valueEntry, ends_bind, ends_pure]
    exact ⟨_, p, hentry, rfl, rfl⟩
  | _ => cases hc

theorem ends_values_valueOf (hp : p.Wf) {is : List Nat} {cs : List Constant}
    (hcs : List.Forall₂ (fun i c => p.at? i = some c) is cs) (hvalues : ∀ c ∈ cs, c.isValue) :
    Ends (values (cs.map valueOf)) p is p := by
  induction hcs with
  | nil => exact ends_pure.2 ⟨rfl, rfl⟩
  | @cons i c is cs hat _ ih =>
    have hvalue : Ends (value (valueOf c)) p i p := by
      simp only [value, ends_bind]
      exact ⟨_, p, ends_valueEntry_valueOf hp hat (hvalues c List.mem_cons_self),
        ends_pure.2 ⟨rfl, rfl⟩⟩
    simp only [List.map_cons, values, ends_bind, ends_pure]
    exact ⟨i, p, hvalue, is, p, ih fun c hc => hvalues c (List.mem_cons_of_mem _ hc), rfl, rfl⟩

end PoolM

/-! ## Call sites -/

namespace Pool

open PoolM

variable {p q : Pool}

theorem fetchValues_of_at? {is : List Nat} {cs : List Constant}
    (hcs : List.Forall₂ (fun i c => p.at? i = some c) is cs) :
    p.fetchValues is = .ok (cs.map valueOf) := by
  induction hcs with
  | nil => rfl
  | cons hat _ ih =>
    rw [fetchValues] at ih ⊢
    rw [List.mapM_cons, fetch_of_at? hat, ih]
    rfl

/-- A bootstrap method that can be read back is found again under its number. -/
theorem Links.same (hp : p.Wf) {n m : Nat} {is : List Nat} (h : p.Links n m is) :
    (p.withWords ((m :: is.length :: is).map UInt16.ofNat)).sameBootstrap? p.bootstrapBytes.size =
    some n := by
  obtain ⟨bs, hbs, hshort⟩ := hp.blocks
  obtain ⟨b, hb, rfl, rfl⟩ := (hbs.links_iff (hshort trivial)).1 h
  rw [← (hbs.same_iff (hshort trivial) (hshort trivial b (List.mem_of_getElem? hb)))] at hb
  simpa [Block.words, Function.comp_def] using hb

/-- Every bootstrap method has a handle and arguments that are values. -/
def Sited (p : Pool) : Prop :=
  ∀ n < p.bootstrapCount, ∃ m cs, p.Site n (handleConstant m) cs ∧ isHandleKind m.kind ∧ ∀ c ∈ cs,
    c.isValue

theorem Site.restores (hp : p.Wf) {i n : Nat} {name desc : Text} {m : Handle} {cs : List Constant}
    (hsite : p.Site n (handleConstant m) cs) (hkind : isHandleKind m.kind)
    (hcs : ∀ c ∈ cs, c.isValue) (hat : p.at? i = some (.invokeDynamic name desc n)) :
    p.bootstrapAt n = .ok (m, cs.map valueOf) ∧
      Ends (dynamicEntry name desc m (cs.map valueOf)) p (i, .invokeDynamic name desc n) p := by
  obtain ⟨handle, is, hlinks, hhandle, his⟩ := hsite
  have hvalue : valueOf (handleConstant m) = .handle m := by
    have hnat : (m.kind.toNat : Int) = m.kind :=
      Int.toNat_of_nonneg (Int.le_trans (by decide) hkind.1)
    simp [handleConstant, valueOf, hnat]
  constructor
  · have hwords : bootstrapWords n (wordsOf p.bootstrapBytes.toList) = .ok (handle, is) := hlinks
    simp only [bootstrapAt, hwords, bind, Except.bind, fetch_of_at? hhandle, hvalue,
      fetchValues_of_at? his]
    rfl
  · have hbootstrap : Ends (bootstrap m (cs.map valueOf)) p n p := by
      simp only [bootstrap, methodHandle, ends_bind, ends_pure, ends_pool_get, ends_pool_modify]
      refine ⟨handle, p, ⟨_, p, ends_handleEntry_of_at? hp hkind hhandle, rfl, rfl⟩, is, p,
        ends_values_valueOf hp his hcs, p, p, ⟨rfl, rfl⟩, (), p.withWords _, rfl, _, _, ⟨rfl, rfl⟩,
        ?_⟩
      rw [hlinks.same hp]
      simp only [ends_bind, ends_pool_modify, ends_pure]
      exact ⟨(), _, rfl, trivial, rfl⟩
    simp only [dynamicEntry, ends_bind, ends_pure]
    exact ⟨n, p, hbootstrap, i, p, ends_intern_of_at? hp hat _, rfl, rfl⟩

def SameCount (p q : Pool) : Prop := q.bootstrapCount = p.bootstrapCount

instance : PoolWork SameCount where
  refl _ := rfl
  trans h h' := h'.trans h
  fail p f _ := by
    unfold SameCount recordFailure
    split <;> rfl
  emit _ _ := rfl
  enter _ _ := rfl

theorem Sited.mono (h : p.Sited) (hext : p.Extends q)
    (hcount : q.bootstrapCount = p.bootstrapCount) : q.Sited := by
  intro n hn
  obtain ⟨m, cs, hsite, hkind, hcs⟩ := h n (hcount ▸ hn)
  exact ⟨m, cs, hsite.mono hext, hkind, hcs⟩

end Pool

namespace PoolM

open Pool

variable {p q : Pool}

theorem count_dynamicEntry {name desc : Text} {m : Handle} {args : List Value} {i n : Nat}
    (e : Ends (dynamicEntry name desc m args) p (i, .invokeDynamic name desc n) q) :
    q.bootstrapCount = p.bootstrapCount ∨ (n = p.bootstrapCount ∧ q.bootstrapCount = n + 1) := by
  simp only [dynamicEntry, ends_bind, ends_pure] at e
  obtain ⟨k, r, hbootstrap, j, r', hintern, heq, rfl⟩ := e
  obtain ⟨rfl, hk⟩ := Prod.mk.inj heq
  obtain rfl : k = n := (Constant.invokeDynamic.inj hk).2.2
  have hlast : r'.bootstrapCount = r.bootstrapCount := (hintern.keeps : SameCount r r')
  obtain ⟨m, c, p₁, is, p₂, hhandle, his, b, -, hcases⟩ := bootstrap_cases hbootstrap
  have hfirst : p₁.bootstrapCount = p.bootstrapCount := (hhandle.keeps : SameCount p p₁)
  have hsecond : p₂.bootstrapCount = p₁.bootstrapCount := (his.keeps : SameCount p₁ p₂)
  rcases hcases with ⟨-, rfl⟩ | ⟨-, rfl, rfl⟩
  · exact .inl (by omega)
  · exact .inr ⟨by omega, hlast⟩

theorem sited_dynamicEntry {name desc : Text} {m : Handle} {args : List Value} {r : Nat × Constant}
    (hp : p.Wf) (hargs : args.length < 65536) (hsited : p.Sited)
    (e : Ends (dynamicEntry name desc m args) p r q) (hq : q.failure = none) : q.Sited := by
  obtain ⟨i, c⟩ := r
  obtain ⟨hreg, n, rfl, -, hsite⟩ := ends_dynamicEntry hp hargs e
  obtain ⟨hkind, cs, hcs, hsite⟩ := hsite hq
  rcases count_dynamicEntry e with hsame | ⟨rfl, hmore⟩
  · exact hsited.mono hreg.extend hsame
  intro k hk
  by_cases hold : k < p.bootstrapCount
  · obtain ⟨m', cs', hsite', hkind', hcs'⟩ := hsited k hold
    exact ⟨m', cs', hsite'.mono hreg.extend, hkind', hcs'⟩
  · obtain rfl : k = p.bootstrapCount := by omega
    refine ⟨m, cs, hsite, hkind, fun c hc => ?_⟩
    obtain ⟨v, -, hv⟩ := exists_of_forall₂ hcs hc
    exact Value.isValue_of_constant? hv

end PoolM

namespace Registration

open Pool PoolM

theorem sited_run {r : Registration} {p q : Pool} {i : Nat} (hp : p.Wf) (hsited : p.Sited)
    (e : Ends r.run p i q) (hq : q.failure = none) : q.Sited := by
  have hext := (ends_run hp e).1.extend
  have hplain (hcount : SameCount p q) : q.Sited := hsited.mono hext hcount
  cases r with
  | dynamic name desc m args short =>
    obtain ⟨_, _, hentry, hpure⟩ := e.bind
    obtain ⟨-, rfl⟩ := hpure.pure
    exact sited_dynamicEntry hp short hsited hentry hq
  | handle h =>
    obtain ⟨_, _, hentry, hpure⟩ := e.bind
    obtain ⟨-, rfl⟩ := hpure.pure
    exact hplain hentry.keeps
  | _ =>
    dsimp only [run] at e
    exact hplain e.keeps

theorem sited_runAll {rs : List Registration} {p q : Pool} {is : List Nat} (hp : p.Wf)
    (hsited : p.Sited) (e : Ends (runAll rs) p is q) (hq : q.failure = none) : q.Sited := by
  induction rs generalizing p is with
  | nil =>
    obtain ⟨-, rfl⟩ := e.pure
    exact hsited
  | cons r rs ih =>
    simp only [runAll, ends_bind, ends_pure] at e
    obtain ⟨i, p₁, hr, _, _, hrs, -, rfl⟩ := e
    have hreg := (ends_run hp hr).1
    have hp₁ := ((ends_runAll hreg.wf hrs).1.extend).no_failure hq
    exact ih hreg.wf (sited_run hp hsited hr hp₁) hrs

/-- Two call sites with one name, whose bootstrap methods differ in their arguments. -/
def callSites : List Registration := [
  .dynamic "run" "()V" ⟨6, "B", "m", "()V", false⟩ [.string "x", .type (.ofName "[I")] (by decide),
  .dynamic "run" "()V" ⟨6, "B", "m", "()V", false⟩ [.int64 7] (by decide)]

end Registration

end ClassAssembler
