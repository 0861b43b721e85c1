import ClassAssembler.Method.Handler
import Mathlib.Data.List.Basic
import Mathlib.Tactic.SplitIfs

/-!
# Protected ranges

Taking a range out of an exception table is exact: inside the range no row covers an offset any
more, outside it the same rows do, in the same order.  The rows of a table are shared with whoever
holds them.  `Handler.cutAll` works on such a table: its rows lie in a store, one that is cut is
copied there, and the end of the range is put into a row whether it is there or not.  It computes
what `Handler.subtract` gives, leaves the store as it was and never puts an absent label into a row
(`Handler.subtract_exact`).
-/

namespace ClassAssembler

open List

/-- A part of the code from one label up to another, or to its end. -/
structure CodeRange (position : LabelId → Nat) where
  start : LabelId
  stop : Option LabelId
  ordered : ∀ l ∈ stop, position start ≤ position l

namespace CodeRange

variable {position : LabelId → Nat}

def Contains (r : CodeRange position) (pc : Nat) : Prop :=
  position r.start ≤ pc ∧ ∀ l ∈ r.stop, pc < position l

/-- Whether a row and a range overlap; a row that covers nothing may lie within the range. -/
def Meets (r : CodeRange position) (h : Handler) : Prop :=
  position r.start < position h.stop ∧ ∀ l ∈ r.stop, position h.start < position l

end CodeRange

namespace Handler

/-- A row in memory, where a label may be absent. -/
structure Cell where
  start : Option LabelId
  stop : Option LabelId
  handler : LabelId
  caught : Text
  caughtIndex : Nat

def cell (h : Handler) : Cell := ⟨h.start, h.stop, h.handler, h.caught, h.caughtIndex⟩

abbrev Store := Array Cell

/-- The places of what is left of the row at a place.  A row that changes is copied to a
new place. -/
def cut (position : LabelId → Nat) (start : LabelId) (stop : Option LabelId) (place : Nat)
    (store : Store) : Checked (List Nat × Store) := do
  let row ← Checked.fetch store place
  let s := position start
  let e := (stop.map position).getD farEnd
  let hs := position (← Checked.need row.start)
  let he := position (← Checked.need row.stop)
  if he ≤ s ∨ e ≤ hs then return ([place], store)
  else if s ≤ hs ∧ he ≤ e then return ([], store)
  else if s ≤ hs then return ([store.size], store.push { row with start := stop })
  else if he ≤ e then return ([store.size], store.push { row with stop := some start })
  else
    return ([store.size, store.size + 1],
      (store.push { row with stop := some start }).push { row with start := stop })

def cutAll (position : LabelId → Nat) (start : LabelId) (stop : Option LabelId) :
    List Nat → Store → Checked (List Nat × Store)
  | [], store => return ([], store)
  | place :: places, store => do
    let (front, store) ← cut position start stop place store
    let (rest, store) ← cutAll position start stop places store
    return (front ++ rest, store)

/-- The rows stand at these places, and all their labels are there. -/
def StandAt (store : Store) (places : List Nat) (rows : List Handler) : Prop :=
  places.map (store[·]?) = rows.map fun h => some h.cell

/-- Nothing that is in a store changes. -/
def Keeps (store store' : Store) : Prop := ∀ i < store.size, store'[i]? = store[i]?

variable {position : LabelId → Nat} {pc : Nat}

/-- The rows that cover an offset, each with its handler and what it catches. -/
def covering (position : LabelId → Nat) (pc : Nat) (rows : List Handler) :
    List (LabelId × Text × Nat) :=
  (rows.filter fun h => position h.start ≤ pc ∧ pc < position h.stop).map fun h => (h.handler,
    h.caught, h.caughtIndex)

theorem covering_cons (h : Handler) (rows : List Handler) : covering position pc (h :: rows) =
    (if position h.start ≤ pc ∧ pc < position h.stop then [(h.handler, h.caught, h.caughtIndex)]
      else []) ++ covering position pc rows := by
  simp only [covering, filter_cons]
  by_cases hpc : position h.start ≤ pc ∧ pc < position h.stop
  · simp [hpc]
  · simp [hpc]

theorem covering_flatMap (f : Handler → List Handler) (rows : List Handler) :
    covering position pc (rows.flatMap f) = rows.flatMap fun h => covering position pc (f h) := by
  simp only [covering, filter_flatMap, map_flatMap]

theorem toList_subtract (start : LabelId) (stop : Option LabelId) (rows : Array Handler) :
    (subtract position start stop rows).toList =
    rows.toList.flatMap (subtractFrom position start stop) := by
  simp [subtract]

/-! ## One row -/

section Row

variable (r : CodeRange position) {h : Handler}

theorem covering_subtractFrom_of_contains (hpc : r.Contains pc)
    (hcode : r.stop = none → position h.start < farEnd ∧ position h.stop < farEnd) :
    covering position pc (subtractFrom position r.start r.stop h) = [] := by
  obtain ⟨start, stop, hordered⟩ := r
  obtain ⟨hstart, hstop⟩ := hpc
  have hnil : covering position pc [] = [] := rfl
  cases stop with
  | none =>
    obtain ⟨-, hfar⟩ := hcode rfl
    simp only [subtractFrom]
    grind [covering_cons]
  | some l =>
    have hl := hstop l rfl
    simp only [subtractFrom]
    grind [covering_cons]

theorem covering_subtractFrom_of_not_contains (hpc : ¬ r.Contains pc)
    (hcode : r.stop = none → position h.start < farEnd ∧ position h.stop < farEnd) :
    covering position pc (subtractFrom position r.start r.stop h) = covering position pc [h] := by
  obtain ⟨start, stop, hordered⟩ := r
  have hnil : covering position pc [] = [] := rfl
  cases stop with
  | none =>
    obtain ⟨-, hfar⟩ := hcode rfl
    simp only [CodeRange.Contains, subtractFrom] at hpc ⊢
    grind [covering_cons]
  | some l =>
    have hl := hordered l rfl
    simp only [CodeRange.Contains, subtractFrom] at hpc ⊢
    grind [covering_cons]

/-- A piece of a row covers something, unless it is the row itself and was not touched. -/
theorem lt_of_mem_subtractFrom {row : Handler} (hrow : row ∈ subtractFrom position r.start r.stop h)
    (hcode : r.stop = none → position h.start < farEnd ∧ position h.stop < farEnd) :
    position row.start < position row.stop ∨ row = h ∧ ¬ r.Meets h := by
  obtain ⟨start, stop, hordered⟩ := r
  cases stop with
  | none =>
    obtain ⟨hfar, -⟩ := hcode rfl
    simp only [CodeRange.Meets, subtractFrom] at hrow ⊢
    grind
  | some l =>
    simp only [CodeRange.Meets, subtractFrom] at hrow ⊢
    grind

end Row

/-! ## Rows in a store -/

theorem Keeps.refl (store : Store) : Keeps store store := fun _ _ => rfl

theorem Keeps.getElem? {store store' : Store} (hkeeps : Keeps store store') {i : Nat} {c : Cell}
    (h : store[i]? = some c) : store'[i]? = some c := by
  obtain ⟨hi, -⟩ := Array.getElem?_eq_some_iff.1 h
  rw [hkeeps i hi, h]

theorem Keeps.trans {store store' store'' : Store} (h : Keeps store store')
    (h' : Keeps store' store'') : Keeps store store'' := by
  intro i hi
  have hcell : store[i]? = some store[i] := Array.getElem?_eq_getElem hi
  rw [h'.getElem? (h.getElem? hcell), hcell]

theorem keeps_push (store : Store) (c : Cell) : Keeps store (store.push c) := by
  intro i hi
  rw [Array.getElem?_push, if_neg (Nat.ne_of_lt hi)]

theorem StandAt.keeps {store store' : Store} (hkeeps : Keeps store store') {places : List Nat}
    {rows : List Handler} (h : StandAt store places rows) : StandAt store' places rows := by
  unfold StandAt at h ⊢
  rw [← h]
  refine map_congr_left fun place hplace => ?_
  -- every place holds one of the rows, so it lies in the store
  have hmem : store[place]? ∈ rows.map fun h => some h.cell := h ▸ mem_map_of_mem hplace
  obtain ⟨row, -, hrow⟩ := mem_map.1 hmem
  rw [hkeeps.getElem? hrow.symm, hrow]

theorem cut_eq (start : LabelId) {stop : Option LabelId} {place : Nat} {store : Store} {h : Handler}
    (hplace : store[place]? = some h.cell)
    (hcode : stop = none → position h.start < farEnd ∧ position h.stop < farEnd) :
    ∃ places store', cut position start stop place store = .ok (places, store') ∧
      StandAt store' places (subtractFrom position start stop h) ∧ Keeps store store' := by
  have hfetch : Checked.fetch store place = .ok h.cell := by
    simp [Checked.fetch, hplace]
  have hcopy (c : Cell) : Keeps store (store.push c) := keeps_push store c
  simp only [cut, hfetch, cell, Checked.need_some, bind, Except.bind, pure, Except.pure]
  cases stop with
  | none =>
    obtain ⟨-, hfar⟩ := hcode rfl
    simp only [subtractFrom, Option.map_none, Option.getD_none]
    split_ifs with hapart hwithin hleft hright
    · exact ⟨_, _, rfl, by simpa [StandAt, cell] using hplace, .refl store⟩
    · exact ⟨_, _, rfl, rfl, .refl store⟩
    · -- the row would have to reach beyond the far end
      exact absurd ⟨hleft, Nat.le_of_lt hfar⟩ hwithin
    · exact ⟨_, _, rfl, by simp [StandAt, cell], hcopy _⟩
    · exact absurd (Nat.le_of_lt hfar) hright
  | some l =>
    simp only [subtractFrom, Option.map_some, Option.getD_some]
    split_ifs with hapart hwithin hleft hright
    · exact ⟨_, _, rfl, by simpa [StandAt, cell] using hplace, .refl store⟩
    · exact ⟨_, _, rfl, rfl, .refl store⟩
    · exact ⟨_, _, rfl, by simp [StandAt, cell], hcopy _⟩
    · exact ⟨_, _, rfl, by simp [StandAt, cell], hcopy _⟩
    · refine ⟨_, _, rfl, ?_, (hcopy _).trans (keeps_push _ _)⟩
      simp [StandAt, cell, Array.getElem?_push]

theorem cutAll_eq {start : LabelId} {stop : Option LabelId} {places : List Nat} {store : Store}
    {rows : List Handler} (hrows : StandAt store places rows)
    (hcode : stop = none → ∀ h ∈ rows, position h.start < farEnd ∧ position h.stop < farEnd) :
    ∃ places' store', cutAll position start stop places store = .ok (places', store') ∧
      StandAt store' places' (rows.flatMap (subtractFrom position start stop)) ∧
      Keeps store store' := by
  induction places generalizing store rows with
  | nil =>
    obtain rfl : rows = [] := map_eq_nil_iff.1 hrows.symm
    exact ⟨[], store, rfl, rfl, .refl store⟩
  | cons place places ih =>
    obtain ⟨h, rows, rfl, hplace, hrest⟩ := map_eq_cons_iff.1 hrows.symm
    obtain ⟨front, mid, hcut, hfront, hkeeps⟩ :=
      cut_eq start hplace.symm fun hstop => hcode hstop h mem_cons_self
    obtain ⟨rest, store', hall, hstand, hkeeps'⟩ := ih (StandAt.keeps hkeeps hrest.symm)
        fun hstop h hh =>
      hcode hstop h (mem_cons_of_mem _ hh)
    refine ⟨front ++ rest, store', ?_, ?_, hkeeps.trans hkeeps'⟩
    · simp only [cutAll, hcut, hall, bind, Except.bind, pure, Except.pure]
    · rw [StandAt, map_append, flatMap_cons, map_append, hfront.keeps hkeeps', hstand]

/-- Taking a range out of a table of rows with placed labels gives a table in which no row covers an
offset of the range, and in which the same rows as before cover every other offset, in the same
order.  A row that overlaps the range leaves no empty row behind.  Worked out on rows in a store,
this cannot fail, gives rows with all their labels and changes none that was there.  Where the range
has no end, the code has to lie before the far one. -/
theorem subtract_exact (r : CodeRange position) {store : Store} {places : List Nat}
    {rows : Array Handler} (hrows : StandAt store places rows.toList)
    (hcode : r.stop = none → ∀ h ∈ rows, position h.start < farEnd ∧ position h.stop < farEnd) :
    (∃ places' store', cutAll position r.start r.stop places store = .ok (places', store') ∧
      StandAt store' places' (subtract position r.start r.stop rows).toList ∧ Keeps store store') ∧
    (∀ pc, r.Contains pc →
      covering position pc (subtract position r.start r.stop rows).toList = []) ∧
    (∀ pc, ¬ r.Contains pc →
      covering position pc (subtract position r.start r.stop rows).toList =
      covering position pc rows.toList) ∧
    ∀ row ∈ subtract position r.start r.stop rows,
      position row.start < position row.stop ∨ row ∈ rows ∧ ¬ r.Meets row := by
  have hcode' {h : Handler} (hh : h ∈ rows.toList) (hstop : r.stop = none) :=
    hcode hstop h (Array.mem_toList_iff.1 hh)
  rw [toList_subtract]
  refine ⟨cutAll_eq hrows fun hstop h hh => hcode' hh hstop, fun pc hpc => ?_, fun pc hpc => ?_,
    fun row hrow => ?_⟩
  · rw [covering_flatMap, flatMap_eq_nil_iff]
    exact fun h hh => covering_subtractFrom_of_contains r hpc (hcode' hh)
  · rw [covering_flatMap]
    calc rows.toList.flatMap (fun h => covering position pc
      (subtractFrom position r.start r.stop h))
        = rows.toList.flatMap fun h => covering position pc [h] :=
          flatMap_congr fun h hh => covering_subtractFrom_of_not_contains r hpc (hcode' hh)
      _ = covering position pc rows.toList := by rw [← covering_flatMap, flatMap_singleton']
  · rw [← Array.mem_toList_iff, toList_subtract] at hrow
    obtain ⟨h, hh, hrow⟩ := mem_flatMap.1 hrow
    obtain hlt | ⟨rfl, hmeets⟩ := lt_of_mem_subtractFrom r hrow (hcode' hh)
    · exact .inl hlt
    · exact .inr ⟨Array.mem_toList_iff.1 hh, hmeets⟩

/-- A row around the labels from 2 to 4, rows that reach into them from either side, one inside and
one before. -/
def overlapping : Array Handler :=
  #[⟨0, 9, 5, [], 0⟩, ⟨1, 3, 5, [], 0⟩, ⟨3, 7, 6, [], 0⟩, ⟨3, 3, 6, [], 0⟩, ⟨0, 2, 7, [], 0⟩]

theorem subtract_exact_overlapping :
    (∃ places store, cutAll id 2 (some 4) [0, 1, 2, 3, 4] (overlapping.map cell) =
      .ok (places, store) ∧ StandAt store places (subtract id 2 (some 4) overlapping).toList ∧
      Keeps (overlapping.map cell) store) ∧
    covering id 5 (subtract id 2 (some 4) overlapping).toList = covering id 5 overlapping.toList ∧
    covering id 5 (subtract id 2 none overlapping).toList = [] := by
  have hrows : StandAt (overlapping.map cell) [0, 1, 2, 3, 4] overlapping.toList := by
    simp [StandAt, overlapping]
  obtain ⟨hcut, -, houtside, -⟩ := subtract_exact (⟨2, some 4, by simp⟩ : CodeRange id) hrows
    (by simp)
  obtain ⟨-, hinside, -⟩ := subtract_exact (⟨2, none, by simp⟩ : CodeRange id) hrows (by decide)
  exact ⟨hcut, houtside 5 (by simp [CodeRange.Contains]), hinside 5 (by simp [CodeRange.Contains])⟩

end Handler

end ClassAssembler
