import ClassAssembler.Proofs.ClassRun
import Mathlib

/-!
# Classes whose jumps can be made wide

Once all events of a class have been taken, every method of it is complete
(`CheckedClass.complete_takenBy`).  So methods can be written again until no jump is pending.
-/

namespace ClassAssembler

open Machine List

/-- The lists of all instructions of a class are no longer than their counts can say. -/
def CheckedClass.Fits (c : CheckedClass) : Prop :=
  ∀ m ∈ c.methods, ∀ l, m.code = some l → ∀ e ∈ l.events, e.Fits

theorem ClassSource.regular_of_check {s : ClassSource} {c : CheckedClass} (h : s.check = .ok c)
    (hfits : c.Fits) : ∀ m ∈ c.methods, m.Regular := by
  intro m hm l hl e he
  obtain ⟨name, code, hread⟩ := s.exists_of_check h hm hl
  obtain ⟨L, hlisted, -⟩ := Listing.listed_read name code
  rw [hread] at hlisted
  exact ⟨(hlisted e he).regular (hfits m hm l hl e he), (hlisted e he).kind⟩

namespace Method

theorem Created.done {own : LabelId → Prop} {compute : Compute} {s : Pool × Session} {v : State}
    (h : Created own compute s v) : Done (fun l => own l ∧ l < v.1.2.labels.size) [] v where
  handlers := by simp [h.handlers]
  lines := by simp [h.lines]
  locals := by simp [h.locals]
  types := by simp [h.types]
  code := h.emitted.code
  sound := nofun
  bounded l hl := h.emitted.bounded l hl.1
  targets := nofun
  ahead := nofun
  pending := nofun
  skips := nofun

end Method

namespace ClassBody

variable {n : Numbering ListingLabel} {y : State} {m : CheckedMethod} {i : Nat}
  {f : ListingLabel → LabelId} {own : LabelId → Prop} {u v : Method.State}

theorem Recorded.methodAt (h : Recorded n m i f y own u v) :
    y.2.methodAt i = { v.2 with isEnded := true } := by
  obtain ⟨id, hid, hm⟩ := h.method
  rw [ClassBody.methodAt, hid, Option.getD_some, hm, Option.getD_some]

theorem Recorded.done (h : Recorded n m i f y own u v) {items : List Item}
    (hv : Method.Done (fun l => own l ∧ l < v.1.2.labels.size) items v) :
    Method.Done (fun l => own l ∧ l < v.1.2.labels.size) items (y.1, y.2.methodAt i) := by
  rw [h.methodAt]
  exact hv.ended.frame h.extends_ (fun l hl => ⟨hl, h.spot l hl.1 hl.2⟩) (fun l hl => .inl hl) rfl

end ClassBody

namespace CheckedClass

open ClassBody ClassM

variable {c : CheckedClass} {compute : Compute} {options : Options} {x y : State}

theorem own_of_recorded {m : CheckedMethod} {i : Nat} {own : LabelId → Prop} {u v : Method.State}
    (hm : c.methods[i]? = some m) (h : Recorded c.numbering m i c.number y own u v) {l : Listing}
    (hl : m.code = some l) : ∀ e ∈ l.numbered i c.number, ∀ t ∈ e.targets, own t := by
  intro e he t ht
  obtain ⟨e, he', rfl⟩ := mem_map.1 he
  rw [CodeEvent.targets_mapTargets, CodeEvent.targets_mapTargets, List.map_map] at ht
  obtain ⟨name, hname, rfl⟩ := mem_map.1 ht
  have hnumber := getElem?_numbering (mk_mem_zipIdx_iff_getElem?.2 hm) hl he' hname
  have hlt := (Numbering.proper_ofEvents c.events).1.lt_size _ _ hnumber
  exact (h.own_iff _ hlt).2 ⟨name, hnumber⟩

/-- A class whose events were all taken has only methods that are done. -/
theorem complete_takenBy (hc : ∀ m ∈ c.methods, m.Regular) (hfail : x.1.1.failure = none)
    (h : c.TakenBy (Assembler.create compute options) x) : Complete x := by
  obtain ⟨hwf, hcount, hrange, -, hall⟩ := recorded_takenBy hc hfail h
  refine ⟨hwf, hrange, fun i hi => ?_⟩
  rw [hcount] at hi
  obtain ⟨own, u, v, hrecorded⟩ := hall i c.methods[i] (getElem?_eq_getElem hi)
  obtain ⟨items, hdone⟩ : ∃ items,
      Method.Done (fun l => own l ∧ l < v.1.2.labels.size) items v := by
    obtain ⟨s, hcreated⟩ := hrecorded.blank
    cases hcode : c.methods[i].code with
    | none =>
      have htaken := hrecorded.taken
      rw [hcode] at htaken
      obtain rfl : v = u := htaken
      exact ⟨[], hcreated.done⟩
    | some l =>
      have hm := hc _ (getElem_mem hi) l hcode
      obtain ⟨items, hclosed⟩ := (hrecorded.assembles hcode (fun e he => (hm e he).1)
        (fun e he => (hm e he).2) (own_of_recorded (getElem?_eq_getElem hi) hrecorded hcode)).closed
      exact ⟨items, hclosed.toDone⟩
  exact ⟨_, items, fun l hl => Nat.lt_of_lt_of_le hl.2 hrecorded.size, hrecorded.done hdone⟩

end CheckedClass

end ClassAssembler
