import ClassAssembler.Assembly
import ClassAssembler.Proofs.Rewriting

/-!
# Passes over the methods of a class

Methods with pending jumps are written again until no jump is pending.  Every method has then its
old code with the instructions at new offsets (`Method.Evolves`): what one pass does to a method is
composed with what the passes before it did.
-/

namespace ClassAssembler

open Machine Item List

namespace Method

section

variable {φ ψ : Nat → Nat} {own : LabelId → Prop} {items : List Item} {u v w : State}

theorem HandlerMoved.trans {s t r : Session} {a b c : Handler} (h : HandlerMoved φ s t a b)
    (h' : HandlerMoved ψ t r b c) : HandlerMoved (ψ ∘ φ) s r a c :=
  ⟨by rw [h'.start, h.start]; rfl, by rw [h'.stop, h.stop]; rfl, by rw [h'.handler, h.handler]; rfl,
    h'.caught.trans h.caught⟩

theorem HandlersMoved.trans (h : HandlersMoved φ u v) (h' : HandlersMoved ψ v w) :
    HandlersMoved (ψ ∘ φ) u w :=
  forall₂_trans h h' fun _ _ _ _ hab hbc => hab.trans hbc

theorem Done.handlersMoved (h : Done own items u)
    (hspot : ∀ l, own l → v.1.2.spot l = u.1.2.spot l) (hm : v.2 = u.2) : HandlersMoved id u v := by
  rw [show v = (v.1, u.2) from Prod.ext rfl hm]
  refine forall₂_same.2 fun a ha => ?_
  obtain ⟨hs, ht, hh, -⟩ := h.handlers a (Array.mem_toList_iff.1 ha)
  exact ⟨by rw [hspot _ hs]; rfl, by rw [hspot _ ht]; rfl, by rw [hspot _ hh]; rfl, rfl⟩

/-- The code of a method is that of another one, with its instructions at new offsets, and its
exception table is moved along. -/
structure Evolves (u v : State) : Prop where
  header : v.2.header = u.2.header
  moved : v.2.code.size ≤ 65535 → u.2.code.size ≤ 65535 ∧ ∃ φ ds ds',
    Disassembles u.1.1 u.2.code.toList 0 ds ∧ Disassembles v.1.1 v.2.code.toList 0 ds' ∧
    WidensOften u.2.code.toList ds φ v.2.code.toList ds' ∧ HandlersMoved φ u v

theorem Done.evolves (h : Done own items u) : Evolves u u :=
  ⟨rfl, fun hlimit => ⟨hlimit, id, _, _, h.reads hlimit, h.reads hlimit, .never,
    h.handlersMoved (fun _ _ => rfl) rfl⟩⟩

theorem Evolves.rewrites {items' : List Item} (h : Evolves u v) (hv : Done own items v)
    (h' : Rewrites items items' v w) : Evolves u w := by
  refine ⟨h'.header.trans h.header, fun hlimit => ?_⟩
  obtain ⟨hlimit', ψ, hwidens', hmoved'⟩ := h'.moved hlimit
  obtain ⟨hlimit₀, φ, ds, ds', hds, hds', hwidens, hmoved⟩ := h.moved hlimit'
  obtain rfl := hds'.unique (hv.reads hlimit')
  exact ⟨hlimit₀, ψ ∘ φ, ds, _, hds, h'.done.reads hlimit, hwidens.again hwidens',
    hmoved.trans hmoved'⟩

theorem Evolves.frame (h : Evolves u v) (hv : Done own items v) (hw : Done own items w)
    (hspot : ∀ l, own l → w.1.2.spot l = v.1.2.spot l) (hm : w.2 = v.2) : Evolves u w := by
  refine ⟨hm ▸ h.header, fun hlimit => ?_⟩
  rw [hm] at hlimit
  obtain ⟨hlimit₀, φ, ds, ds', hds, hds', hwidens, hmoved⟩ := h.moved hlimit
  obtain rfl := hds'.unique (hv.reads hlimit)
  refine ⟨hlimit₀, φ, ds, (placed 0 items).map (readAt w.1.2.positions), hds,
    hw.reads (hm ▸ hlimit), ?_, ?_⟩
  · rw [hv.map_readAt hspot, hm]
    exact hwidens
  · exact hmoved.trans (hv.handlersMoved hspot hm)

end

end Method

/-! ## Methods of a class -/

namespace ClassBody

variable {c : ClassBody}

abbrev State := (Pool × Session) × ClassBody

def methodAt (c : ClassBody) (i : Nat) : Method :=
  (c.methods[(c.written[i]?).getD 0]?).getD default

/-- The class with a method that is written in the place of another one. -/
def replaced (c : ClassBody) (i : Nat) (m : Method) : ClassBody :=
  { c with methods := c.methods.push m, written := c.written.setIfInBounds i c.methods.size }

def withMethod (c : ClassBody) (id : MethodId) (m : Method) : ClassBody :=
  { c with methods := c.methods.setIfInBounds id m }

theorem withMethod_self {id : MethodId} {m : Method} (h : c.methods[id]? = some m) :
    c.withMethod id m = c := by
  have hsame : c.methods.setIfInBounds id m = c.methods := by
    refine Array.ext_getElem? fun j => ?_
    by_cases hj : id = j
    · subst hj
      rw [Array.getElem?_setIfInBounds_self_of_lt (Array.getElem?_eq_some_iff.1 h).1, h]
    · rw [Array.getElem?_setIfInBounds_ne hj]
  rw [withMethod, hsame]

theorem withMethod_withMethod (c : ClassBody) (id : MethodId) (m m' : Method) :
    (c.withMethod id m).withMethod id m' = c.withMethod id m' := by
  simp [withMethod]

theorem getElem?_withMethod {id : MethodId} {m m' : Method} (h : c.methods[id]? = some m) :
    (c.withMethod id m').methods[id]? = some m' :=
  Array.getElem?_setIfInBounds_self_of_lt (Array.getElem?_eq_some_iff.1 h).1

def Settled (c : ClassBody) : Prop :=
  ∀ i < c.written.size, c.methods[(c.written[i]?).getD 0]? = some (c.methodAt i) ∧
    (c.methodAt i).hasPending = false

def InRange (c : ClassBody) : Prop := ∀ id ∈ c.written, id < c.methods.size

theorem InRange.getElem? (h : c.InRange) {i : Nat} (hi : i < c.written.size) :
    ∃ id, c.written[i]? = some id ∧ id < c.methods.size ∧ c.methods[id]? = some (c.methodAt i) := by
  have hid := Array.getElem?_eq_getElem hi
  have hlt := h _ (Array.getElem_mem hi)
  refine ⟨_, hid, hlt, ?_⟩
  rw [methodAt, hid, Option.getD_some, Array.getElem?_eq_getElem hlt, Option.getD_some]

theorem InRange.replaced (h : c.InRange) (i : Nat) (m : Method) : (c.replaced i m).InRange := by
  intro id hid
  rw [ClassBody.replaced, Array.size_push]
  rcases Array.mem_or_eq_of_mem_setIfInBounds hid with hid | rfl
  · exact Nat.lt_succ_of_lt (h id hid)
  · exact Nat.lt_succ_self _

theorem InRange.methodAt_replaced (h : c.InRange) {i j : Nat} (hj : j < c.written.size)
    (m : Method) : (c.replaced i m).methodAt j = if i = j then m else c.methodAt j := by
  obtain ⟨id, hid, hlt, hm⟩ := h.getElem? hj
  split
  next hij =>
    subst hij
    rw [methodAt, ClassBody.replaced, Array.getElem?_setIfInBounds_self_of_lt hj, Option.getD_some,
      Array.getElem?_push_size, Option.getD_some]
  next hij =>
    rw [methodAt, ClassBody.replaced, Array.getElem?_setIfInBounds_ne hij, hid, Option.getD_some,
      Array.getElem?_push_lt hlt, ← Array.getElem?_eq_getElem hlt, hm, Option.getD_some]

end ClassBody

namespace ClassM

open ClassBody

variable {x y : ClassBody.State}

variable {id : MethodId}

theorem ends_onMethod {α : Type} {act : MethodM α} {a : α} (e : Ends (onMethod id act) x a y) :
    ∃ m m', x.2.methods[id]? = some m ∧ Ends act (x.1, m) a (y.1, m') ∧
      y.2 = x.2.withMethod id m' := by
  replace e := ends_get_bind.1 e
  split at e
  · exact absurd e ends_throw
  next m hm =>
    replace e := ends_modify_bind.1 e
    obtain ⟨⟨a', m'⟩, w, h, e⟩ := e.bind
    replace e := ends_modify_bind.1 e
    obtain ⟨rfl, rfl⟩ := e.pure
    obtain ⟨h, hw⟩ := h.lift
    refine ⟨m, m', hm, ends_run.1 h, ?_⟩
    rw [← hw]
    simp [withMethod]

theorem ends_onMethod_get {m : Method} (e : Ends (onMethod id get) x m y) :
    x.2.methods[id]? = some m ∧ x = y := by
  obtain ⟨m', m'', hm, h, hy⟩ := ends_onMethod e
  obtain ⟨rfl, h'⟩ := ends_get.1 h
  obtain ⟨hs, hm'⟩ := Prod.mk.inj h'
  refine ⟨hm, Prod.ext hs ?_⟩
  rw [hy, ← hm', withMethod_self hm]

theorem ends_onMethod_read {m : Method} (h : x.2.methods[id]? = some m) :
    Ends (onMethod id get) x m x := by
  have hput : ({ { x.2 with methods := x.2.methods.setIfInBounds id default } with
      methods := (x.2.methods.setIfInBounds id default).setIfInBounds id m } : ClassBody)
        = x.2 := by
    rw [Array.setIfInBounds_setIfInBounds]
    exact withMethod_self h
  refine ends_bind.2 ⟨_, _, ends_get.2 ⟨rfl, rfl⟩, ?_⟩
  rw [h]
  refine ends_bind.2 ⟨⟨⟩, _, ends_modify.2 rfl, ends_bind.2 ⟨(m, m), _, ends_lift.2 ⟨?_, rfl⟩,
    ends_bind.2 ⟨⟨⟩, _, ends_modify.2 rfl, ends_pure.2 ⟨rfl, Prod.ext rfl hput⟩⟩⟩⟩
  exact ends_run.2 (ends_get.2 ⟨rfl, rfl⟩)

end ClassM

namespace ClassBody

/-- All methods that are written are complete. -/
structure Complete (x : State) : Prop where
  wf : x.1.1.Wf
  inRange : x.2.InRange
  done : ∀ i < x.2.written.size, ∃ own items, (∀ l, own l → l < x.1.2.labels.size) ∧
    Method.Done own items (x.1, x.2.methodAt i)

/-- Methods of a class are written again. -/
structure Widened (x y : State) : Prop where
  extends_ : x.1.1.Extends y.1.1
  rest : { y.2 with methods := #[], written := #[] } = { x.2 with methods := #[], written := #[] }
  count : y.2.written.size = x.2.written.size
  evolves : ∀ i < x.2.written.size, Method.Evolves (x.1, x.2.methodAt i) (y.1, y.2.methodAt i)

variable {x y : State}

theorem Complete.widened_refl (h : Complete x) : Widened x x where
  extends_ := .refl _
  rest := rfl
  count := rfl
  evolves i hi := by
    obtain ⟨own, items, -, hdone⟩ := h.done i hi
    exact hdone.evolves

theorem Widened.replaced {i : Nat} {m : Method} {t : Pool × Session} (h : Widened x y)
    (hy : Complete y) (hi : i < y.2.written.size) (hfail : t.1.failure = none)
    (e : Ends (y.2.methodAt i).widened y.1 m t) :
    Complete (t, y.2.replaced i m) ∧ Widened x (t, y.2.replaced i m) := by
  obtain ⟨own, items, hown, hdone⟩ := hy.done i hi
  obtain ⟨items', hrewrites⟩ := Method.rewrites_widened hdone hy.wf hown hfail e
  have hsize : (y.2.replaced i m).written.size = y.2.written.size := Array.size_setIfInBounds
  -- the other methods have no label in common with the new one
  have hother : ∀ j < y.2.written.size, i ≠ j → ∃ own items, (∀ l, own l → l < y.1.2.labels.size) ∧
      Method.Done own items (y.1, y.2.methodAt j) ∧ Method.Done own items (t, y.2.methodAt j) := by
    intro j hj hij
    obtain ⟨own, items, hown, hdone⟩ := hy.done j hj
    exact ⟨own, items, hown, hdone, hdone.frame hrewrites.extends_
      (fun l hl => ⟨hl, hrewrites.others l (hown l hl)⟩) (fun l hl => .inl hl) rfl⟩
  refine ⟨⟨hrewrites.wf, hy.inRange.replaced i m, fun j hj => ?_⟩,
    ⟨h.extends_.trans hrewrites.extends_, h.rest, hsize.trans h.count, fun j hj => ?_⟩⟩
  · rw [hsize] at hj
    rw [hy.inRange.methodAt_replaced hj]
    split
    next => exact ⟨_, items', fun l hl => hl.2, hrewrites.done⟩
    next hij =>
      obtain ⟨own, items, hown, -, hdone⟩ := hother j hj hij
      exact ⟨own, items, fun l hl => Nat.lt_of_lt_of_le (hown l hl) hrewrites.size,
        hdone⟩
  · have hj' : j < y.2.written.size := h.count ▸ hj
    rw [hy.inRange.methodAt_replaced hj']
    split
    next hij =>
      subst hij
      exact (h.evolves i hj).rewrites hdone hrewrites
    next hij =>
      obtain ⟨own, items, hown, hdone, hdone'⟩ := hother j hj' hij
      exact (h.evolves j hj).frame hdone hdone'
        (fun l hl => hrewrites.others l (hown l hl)) rfl

end ClassBody

namespace ClassM

open ClassBody

variable {x y z : ClassBody.State}

variable {found pending : Bool} {is : List Nat} {fuel pass : Nat}

theorem ends_widenFrom_cons {i : Nat} (e : Ends (widenFrom pass (i :: is) pending) y found z) :
    y.2.methods[(y.2.written[i]?).getD 0]? = some (y.2.methodAt i) ∧
    (((y.2.methodAt i).hasPending = false ∧ Ends (widenFrom pass is pending) y found z) ∨
      (maxPasses < pass ∧ z.1.1.failure ≠ none ∧ y.1.1.Grows z.1.1 ∧ y.2 = z.2 ∧
        (y.2.methodAt i).hasPending) ∨
      (pass ≤ maxPasses ∧ (y.2.methodAt i).hasPending ∧ ∃ m t,
        Ends (y.2.methodAt i).widened y.1 m t ∧
        Ends (widenFrom pass is true) (t, y.2.replaced i m) found z)) := by
  replace e := ends_get_bind.1 e
  obtain ⟨m, _, h, e⟩ := e.bind
  obtain ⟨hm, rfl⟩ := ends_onMethod_get h
  have hat : y.2.methodAt i = m := by rw [methodAt, hm, Option.getD_some]
  rw [hat]
  refine ⟨hm, ?_⟩
  split at e
  next hpending => exact .inl ⟨by simpa using hpending, e⟩
  next hpending =>
    split at e
    next hpass =>
      obtain ⟨_, w, h, e⟩ := e.bind
      obtain ⟨-, rfl⟩ := e.pure
      refine .inr (.inl ⟨hpass, ?_⟩)
      obtain ⟨h, hsame⟩ := h.lift
      have hfailed := h.lift.1
      refine ⟨?_, (PoolM.quiet_fail ..).run _ _ _ hfailed, hsame,
        by simpa [hat] using hpending⟩
      rw [← ends_pool_modify.1 hfailed]
      exact Pool.recordFailure_ne_none _ _
    next hpass =>
      obtain ⟨m', w, h, e⟩ := e.bind
      obtain ⟨h, hw⟩ := h.lift
      obtain ⟨_, _, h', e⟩ := e.bind
      obtain ⟨-, rfl⟩ := h'.modify
      refine .inr (.inr ⟨by omega, by simpa using hpending, m', w.1, h, ?_⟩)
      rw [hw]
      exact e

/-- What every method that is written again preserves, and a failure does, a round preserves. -/
theorem preserved_widenFrom {P : State → Prop}
    (hfail : ∀ {y z}, y.1.1.Grows z.1.1 → y.2 = z.2 → z.1.1.failure ≠ none → P y → P z)
    (hstep : ∀ {y i m t}, Ends (y.2.methodAt i).widened y.1 m t → P y → P (t, y.2.replaced i m))
    (h : P y) (e : Ends (widenFrom pass is pending) y found z) : P z := by
  induction is generalizing y pending with
  | nil =>
    obtain ⟨-, rfl⟩ := e.pure
    exact h
  | cons i is ih =>
    obtain ⟨-, ⟨-, e⟩ | ⟨-, hfailed, hgrows, hsame, -⟩ | ⟨-, -, m, t, hm, e⟩⟩ :=
      ends_widenFrom_cons e
    · exact ih h e
    · exact hfail hgrows hsame hfailed h
    · exact ih (hstep hm h) e

theorem grows_widenFrom (e : Ends (widenFrom pass is pending) y found z) : y.1.1.Grows z.1.1 :=
  preserved_widenFrom (P := fun z => y.1.1.Grows z.1.1) (fun h _ _ hy => Steps.trans hy h)
    (fun hm hy => Steps.trans hy (Method.steady_widened hm).1) (Steps.refl _) e

theorem settled_widenFrom (hfail : z.1.1.failure = none)
    (e : Ends (widenFrom pass is pending) y found z) :
    (pending → found) ∧ (maxPasses < pass → found = pending) ∧ (found = false → y = z ∧ ∀ i ∈ is,
      z.2.methods[(z.2.written[i]?).getD 0]? = some (z.2.methodAt i) ∧
        (z.2.methodAt i).hasPending = false) := by
  induction is generalizing y pending with
  | nil =>
    obtain ⟨rfl, rfl⟩ := e.pure
    exact ⟨id, fun _ => rfl, fun _ => ⟨rfl, fun i hi => by cases hi⟩⟩
  | cons i is ih =>
    obtain ⟨hi, ⟨hnone, e⟩ | ⟨-, hz, -⟩ | ⟨hpass, -, m, t, -, e⟩⟩ := ends_widenFrom_cons e
    · obtain ⟨hfound, hlast, hquiet⟩ := ih e
      refine ⟨hfound, hlast, fun hf => ?_⟩
      obtain ⟨rfl, hothers⟩ := hquiet hf
      exact ⟨rfl, forall_mem_cons.2 ⟨⟨hi, hnone⟩, hothers⟩⟩
    · exact absurd hfail hz
    · have hfound := (ih e).1 rfl
      exact ⟨fun _ => hfound, fun h => absurd h (Nat.not_lt.2 hpass),
        fun hf => by simp [hfound] at hf⟩

theorem widened_widenFrom (h : Widened x y) (hy : Complete y) (his : ∀ i ∈ is, i < y.2.written.size)
    (hfail : z.1.1.failure = none) (e : Ends (widenFrom pass is pending) y found z) :
    Complete z ∧ Widened x z := by
  induction is generalizing y pending with
  | nil =>
    obtain ⟨rfl, rfl⟩ := e.pure
    exact ⟨hy, h⟩
  | cons i is ih =>
    obtain ⟨hi, his⟩ := forall_mem_cons.1 his
    obtain ⟨-, ⟨-, e⟩ | ⟨-, hz, -⟩ | ⟨-, -, m, t, hm, e⟩⟩ := ends_widenFrom_cons e
    · exact ih h hy his e
    · exact absurd hfail hz
    · obtain ⟨hy', h'⟩ := h.replaced hy hi ((grows_widenFrom e).onward.no_failure hfail) hm
      have hsize : (y.2.replaced i m).written.size = y.2.written.size := Array.size_setIfInBounds
      exact ih h' hy' (by rwa [hsize]) e

theorem ends_widenAll_succ (e : Ends (widenAll (fuel + 1) pass) y () z) :
    (y = z ∧ y.1.1.failure ≠ none) ∨ y.1.1.failure = none ∧
      (Ends (widenFrom pass (List.range y.2.written.size) false) y false z ∨
      ∃ w, Ends (widenFrom pass (List.range y.2.written.size) false) y true w ∧
        Ends (widenAll fuel (pass + 1)) w () z) := by
  obtain ⟨failed, w, hw, e⟩ := e.bind
  obtain ⟨hw, hc⟩ := hw.lift
  obtain ⟨hw, hs⟩ := hw.lift
  obtain ⟨hfailed, hp⟩ := PoolM.ends_hasFailed.1 hw
  obtain rfl : y = w := Prod.ext (Prod.ext hp hs) hc
  cases failed with
  | true =>
    obtain ⟨-, rfl⟩ := e.pure
    exact .inl ⟨rfl, fun h => by simp [h] at hfailed⟩
  | false =>
    replace e := ends_get_bind.1 e
    obtain ⟨found, w, hround, e⟩ := e.bind
    refine .inr ⟨by simpa using hfailed, ?_⟩
    cases found with
    | false =>
      obtain ⟨-, rfl⟩ := e.pure
      exact .inl hround
    | true => exact .inr ⟨w, hround, e⟩

theorem preserved_widenAll {P : State → Prop}
    (hfail : ∀ {y z}, y.1.1.Grows z.1.1 → y.2 = z.2 → z.1.1.failure ≠ none → P y → P z)
    (hstep : ∀ {y i m t}, Ends (y.2.methodAt i).widened y.1 m t → P y → P (t, y.2.replaced i m))
    (h : P y) (e : Ends (widenAll fuel pass) y () z) : P z := by
  induction fuel generalizing y pass with
  | zero =>
    obtain ⟨-, rfl⟩ := e.pure
    exact h
  | succ fuel ih =>
    obtain ⟨rfl, -⟩ | ⟨-, hround | ⟨w, hround, e⟩⟩ := ends_widenAll_succ e
    · exact h
    · exact preserved_widenFrom hfail hstep h hround
    · exact ih (preserved_widenFrom hfail hstep h hround) e

theorem grows_widenAll (e : Ends (widenAll fuel pass) y () z) : y.1.1.Grows z.1.1 :=
  preserved_widenAll (P := fun z => y.1.1.Grows z.1.1) (fun h _ _ hy => Steps.trans hy h)
    (fun hm hy => Steps.trans hy (Method.steady_widened hm).1) (Steps.refl _) e

/-- Rounds until no jump is pending.  There is one more round than methods can be written again, so
the last one finds no pending jump. -/
theorem settled_widenAll (hfuel : maxPasses + 2 ≤ fuel + pass) (hpass : pass ≤ maxPasses + 1)
    (hfail : z.1.1.failure = none) (e : Ends (widenAll fuel pass) y () z) : z.2.Settled := by
  induction fuel generalizing y pass with
  | zero => omega
  | succ fuel ih =>
    obtain ⟨rfl, hfailed⟩ | ⟨-, hround | ⟨w, hround, e⟩⟩ := ends_widenAll_succ e
    · exact absurd hfail hfailed
    · obtain ⟨rfl, hnone⟩ := (settled_widenFrom hfail hround).2.2 rfl
      exact fun i hi => hnone i (mem_range.2 hi)
    · have hfail' : w.1.1.failure = none := (grows_widenAll e).onward.no_failure hfail
      have hlast := (settled_widenFrom hfail' hround).2.1
      have hlt : pass ≤ maxPasses := by
        by_contra hgt
        simpa using hlast (Nat.lt_of_not_le hgt)
      exact ih (by omega) (by omega) e

theorem widened_widenAll (h : Widened x y) (hy : Complete y) (hfail : z.1.1.failure = none)
    (e : Ends (widenAll fuel pass) y () z) : Complete z ∧ Widened x z := by
  induction fuel generalizing y pass with
  | zero =>
    obtain ⟨-, rfl⟩ := e.pure
    exact ⟨hy, h⟩
  | succ fuel ih =>
    have hrange : ∀ i ∈ List.range y.2.written.size, i < y.2.written.size :=
      fun i hi => mem_range.1 hi
    obtain ⟨rfl, hfailed⟩ | ⟨-, hround | ⟨w, hround, e⟩⟩ := ends_widenAll_succ e
    · exact absurd hfail hfailed
    · exact widened_widenFrom h hy hrange hfail hround
    · have hfail' : w.1.1.failure = none := (grows_widenAll e).onward.no_failure hfail
      obtain ⟨hw, hxw⟩ := widened_widenFrom h hy hrange hfail' hround
      exact ih hxw hw e

theorem settled_widen (hfail : y.1.1.failure = none) (e : Ends widen x () y) : y.2.Settled :=
  settled_widenAll (Nat.le_succ _) (Nat.le_add_left _ _) hfail e

/-- Widening ends with complete methods, each the widened form of what was recorded. -/
theorem widened_widen (h : Complete x) (hfail : y.1.1.failure = none) (e : Ends widen x () y) :
    Complete y ∧ Widened x y ∧ ∀ i < y.2.written.size, (y.2.methodAt i).hasPending = false := by
  obtain ⟨hy, hxy⟩ := widened_widenAll h.widened_refl h hfail e
  exact ⟨hy, hxy, fun i hi => (settled_widen hfail e i hi).2⟩

theorem ends_widen_of_settled (h : y.2.Settled) (hfail : y.1.1.failure = none) :
    Ends widen y () y := by
  have hround : ∀ is : List Nat, (∀ i ∈ is, i < y.2.written.size) →
      Ends (widenFrom 1 is false) y false y := by
    intro is his
    induction is with
    | nil => exact ends_pure.2 ⟨rfl, rfl⟩
    | cons i is ih =>
      obtain ⟨hi, his⟩ := forall_mem_cons.1 his
      obtain ⟨hm, hnone⟩ := h i hi
      refine ends_bind.2 ⟨_, _, ends_get.2 ⟨rfl, rfl⟩,
        ends_bind.2 ⟨_, _, ends_onMethod_read hm, ?_⟩⟩
      rw [hnone]
      exact ih his
  have hcheck : Ends (liftM PoolM.hasFailed : ClassM Bool) y false y :=
    ends_lift.2 ⟨ends_lift.2 ⟨PoolM.ends_hasFailed.2 ⟨by simp [hfail], rfl⟩, rfl⟩, rfl⟩
  refine ends_bind.2 ⟨_, _, hcheck, ends_bind.2 ⟨_, _, ends_get.2 ⟨rfl, rfl⟩,
    ends_bind.2 ⟨_, _, hround _ fun i hi => mem_range.1 hi, ends_pure.2 ⟨rfl, rfl⟩⟩⟩⟩

end ClassM

end ClassAssembler
