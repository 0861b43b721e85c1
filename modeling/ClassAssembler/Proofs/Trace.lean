import ClassAssembler.Proofs.Emission

/-!
# Instructions that have been written

`Method.Emitted own items u` says that the code of a method consists of items, each of which the
machine can read, and that all labels of the method stand between them.  Taking an instruction adds
the items that the instruction is written as (`Instruction.Forms`), and taking a label gives it the
offset behind all items so far.
-/

namespace ClassAssembler

open Machine List

namespace Item

variable {i : Item} {items : List Item} {o : Nat} {x : Nat × Item} {r r' : Positions}

def bounds (items : List Item) : List Nat := (placed 0 items).map Prod.fst ++ [stop 0 items]

theorem stop_mem_bounds (items : List Item) : stop 0 items ∈ bounds items := by
  simp [bounds]

theorem zero_mem_bounds (items : List Item) : 0 ∈ bounds items := by
  cases items with
  | nil => exact stop_mem_bounds []
  | cons i is => exact mem_append_left _ mem_cons_self

theorem mem_bounds_append {x : Nat} (h : x ∈ bounds items) (more : List Item) :
    x ∈ bounds (items ++ more) := by
  rw [bounds, placed_append, map_append, append_assoc]
  rcases mem_append.1 h with h | h
  · exact mem_append_left _ h
  · refine mem_append_right _ ?_
    obtain rfl := mem_singleton.1 h
    cases more with
    | nil => simp [placed]
    | cons i is => exact mem_append_left _ mem_cons_self

theorem fst_le_stop (hx : x ∈ placed o items) : o ≤ x.1 ∧ x.1 + x.2.size x.1 ≤ stop o items := by
  induction items generalizing o with
  | nil => exact absurd hx not_mem_nil
  | cons i is ih =>
    rcases mem_cons.1 hx with rfl | hx
    · exact ⟨Nat.le_refl o, le_stop _ is⟩
    · obtain ⟨hle, hstop⟩ := ih hx
      exact ⟨Nat.le_trans (Nat.le_add_right _ _) hle, hstop⟩

theorem le_of_mem_bounds {x : Nat} (h : x ∈ bounds items) : x ≤ stop 0 items := by
  rcases mem_append.1 h with h | h
  · obtain ⟨y, hy, rfl⟩ := List.mem_map.1 h
    have := (fst_le_stop hy).2
    omega
  · exact Nat.le_of_eq (mem_singleton.1 h)

theorem mem_of_mem_placed (hx : x ∈ placed o items) : x.2 ∈ items := by
  induction items generalizing o with
  | nil => exact absurd hx not_mem_nil
  | cons i is ih =>
    rcases mem_cons.1 hx with rfl | hx
    · exact mem_cons_self
    · exact mem_cons_of_mem i (ih hx)

theorem exists_mem_placed (hi : i ∈ items) (o : Nat) : ∃ x ∈ placed o items, x.2 = i := by
  induction items generalizing o with
  | nil => exact absurd hi not_mem_nil
  | cons j is ih =>
    rcases mem_cons.1 hi with rfl | hi
    · exact ⟨(o, i), mem_cons_self, rfl⟩
    · obtain ⟨x, hx, rfl⟩ := ih hi (o + j.size o)
      exact ⟨x, mem_cons_of_mem _ hx, rfl⟩

theorem mem_layout (hx : x ∈ placed o items) {q : Piece} (hq : q ∈ x.2.pieces x.1) :
    q ∈ layout o items := by
  induction items generalizing o with
  | nil => exact absurd hx not_mem_nil
  | cons i is ih =>
    rcases mem_cons.1 hx with rfl | hx
    · exact mem_append_left _ hq
    · exact mem_append_right _ (ih hx)

theorem exists_piece {p : Pool} (hi : i.Sound p) {l : LabelId} (hl : l ∈ i.labels) (o : Nat) :
    ∃ q ∈ i.pieces o, q.label? = some l := by
  cases i with
  | fixed i bs => exact absurd hl not_mem_nil
  | short op k =>
    obtain rfl := mem_singleton.1 hl
    exact ⟨_, mem_singleton_self _, rfl⟩
  | wide op k =>
    obtain rfl := mem_singleton.1 hl
    exact ⟨_, mem_cons_of_mem _ mem_cons_self, rfl⟩
  | skip op => exact absurd hl not_mem_nil
  | table low high fallback targets =>
    rcases mem_cons.1 hl with rfl | hl
    · exact ⟨_, mem_cons_of_mem _ mem_cons_self, rfl⟩
    · exact ⟨.wide o l, mem_append_right _ (mem_map_of_mem hl), rfl⟩
  | lookup fallback keys targets =>
    rcases mem_cons.1 hl with rfl | hl
    · exact ⟨_, mem_cons_of_mem _ mem_cons_self, rfl⟩
    · have hzip : l ∈ (keys.zip targets).map Prod.snd := by
        rwa [List.map_snd_zip (Nat.le_of_eq hi.2.1.symm)]
      obtain ⟨row, hrow, rfl⟩ := List.mem_map.1 hzip
      refine ⟨.wide o row.2, mem_append_right _ (mem_flatMap.2 ⟨row, hrow, ?_⟩), rfl⟩
      exact mem_cons_of_mem _ mem_cons_self

theorem Ahead.update {t : Nat} (hi : i.Ahead r o) (ht : o ≤ t) (l : LabelId) :
    i.Ahead (Function.update r l (some t)) o := by
  cases i with
  | short op k =>
    intro t' ht'
    by_cases hk : k = l
    · rw [hk, Function.update_self] at ht'
      exact .inr (Option.some.inj ht' ▸ ht)
    · rw [Function.update_of_ne hk] at ht'
      exact hi t' ht'
  | _ => trivial

theorem Ahead.congr (h : ∀ l ∈ i.labels, r' l = r l) (hi : i.Ahead r o) : i.Ahead r' o := by
  cases i with
  | short op l =>
    intro t ht
    exact hi t (h l mem_cons_self ▸ ht)
  | _ => trivial

theorem isPending_congr (h : ∀ l ∈ i.labels, r' l = r l) : i.isPending r' o = i.isPending r o := by
  cases i with
  | short op l =>
    exact Piece.isPending_congr (p := .short (Buffer.low8 op) l) fun k hk =>
      h k (mem_singleton.2 (Option.some.inj hk).symm)
  | _ => rfl

theorem isPending_mono (hr : ∀ l t, r l = some t → r' l = some t) (h : i.isPending r o = true) :
    i.isPending r' o = true := by
  cases i with
  | short op l =>
    simp only [isPending, Piece.isPending] at h ⊢
    cases hl : r l with
    | none =>
      rw [hl] at h
      cases h
    | some t =>
      rw [hl] at h
      rw [hr l t hl]
      exact h
  | _ => exact h

theorem exists_pending_of_any (h : Piece.anyPending r o (layout o items) = true) :
    ∃ x ∈ placed o items, x.2.isPending r x.1 = true := by
  induction items generalizing o with
  | nil => cases h
  | cons i is ih =>
    rw [layout, Piece.anyPending_append, Bool.or_eq_true] at h
    rcases h with h | h
    · refine ⟨(o, i), mem_cons_self, ?_⟩
      obtain ⟨x, p, hp, hpend⟩ := Piece.exists_pending_of_any h
      cases i with
      | short op l =>
        rw [pieces, Piece.anyPending, Bool.or_eq_true] at h
        exact h.resolve_right (by simp [Piece.anyPending])
      | fixed _ bs | wide op l | skip op =>
        simp only [pieces, mem_cons, not_mem_nil, or_false] at hp
        grind [Piece.isPending]
      | table low high fallback targets =>
        simp only [pieces, mem_cons, mem_append, List.mem_map, not_mem_nil, or_false] at hp
        grind [Piece.isPending]
      | lookup fallback keys targets =>
        simp only [pieces, mem_cons, mem_append, mem_flatMap, not_mem_nil,
          or_false] at hp
        grind [Piece.isPending]
    · obtain ⟨x, hx, hxpend⟩ := ih h
      exact ⟨x, mem_cons_of_mem _ hx, hxpend⟩

end Item

namespace Method

open Item

/-- The code of a method consists of items, and its labels stand between them. -/
structure Emitted (own : LabelId → Prop) (items : List Item) (u : State) : Prop
    extends Written own (layout 0 items) u where
  sound : ∀ i ∈ items, i.Sound u.1.1
  bounded : ∀ l, own l → (u.1.2.spot l).position ∈ bounds items
  ahead : ∀ x ∈ placed 0 items, x.2.Ahead u.1.2.positions x.1
  deferred : ∀ l, .wide 220 l ∈ items → u.2.hasPending
  found : u.2.hasPending → ∃ x ∈ placed 0 items, x.2.isPending u.1.2.positions x.1
  linked : ∀ l n, own l → u.1.2.next l = some n → own n
  entry : ∀ l, u.2.entry = some l → own l
  last : u.2.LastIn own

/-- A method goes on: labels keep the positions they have, and the method all but its code. -/
structure Moves (own : LabelId → Prop) (u v : State) : Prop where
  extends_ : u.1.1.Extends v.1.1
  size : u.1.2.labels.size ≤ v.1.2.labels.size
  stays : ∀ l o, u.1.2.positions l = some o → v.1.2.positions l = some o
  others : ∀ l, ¬ own l → v.1.2.spot l = u.1.2.spot l
  apart : ∀ l n, ¬ own l → v.1.2.next l = some n → u.1.2.next l = some n
  outline : v.2.outline = u.2.outline

instance (own : LabelId → Prop) : Steps (Moves own) where
  refl u := ⟨.refl u.1.1, Nat.le_refl _, fun _ _ h => h, fun _ _ => rfl, fun _ _ _ h => h, rfl⟩
  trans h h' :=
    ⟨h.extends_.trans h'.extends_, Nat.le_trans h.size h'.size,
      fun l o ho => h'.stays l o (h.stays l o ho),
      fun l hl => (h'.others l hl).trans (h.others l hl),
      fun l n hl hn => h.apart l n hl (h'.apart l n hl hn), h'.outline.trans h.outline⟩

section

variable {own : LabelId → Prop} {items : List Item} {u v w : State}

variable {i : Item} {l : LabelId}

theorem Emitted.codeSize (h : Emitted own items u) : u.2.code.size = stop 0 items := by
  rw [h.size, ← sizeAll_layout 0 items, Nat.zero_add]

theorem Emitted.labels_of_item (h : Emitted own items u) (hi : i ∈ items) (hl : l ∈ i.labels) :
    own l ∧ l < u.1.2.labels.size ∧ (u.1.2.positions l = none → l ∈ u.2.forward) := by
  obtain ⟨x, hx, rfl⟩ := exists_mem_placed hi 0
  obtain ⟨q, hq, hql⟩ := exists_piece (h.sound x.2 hi) hl x.1
  exact h.labels q (mem_layout hx hq) l hql

theorem outline_entry (h : v.2.outline = u.2.outline) : v.2.entry = u.2.entry :=
  (congrArg Method.entry h : v.2.outline.entry = u.2.outline.entry)

/-! ## Single steps -/

theorem Calm.moves (h : Calm own u v) (hwf : u.1.1.Wf)
    (hbase : ∀ n, u.1.2.labels.size ≤ n → own n) (hlast : u.2.LastIn own) : Moves own u v := by
  refine ⟨(h.grows hwf).2, h.size, fun l o ho => ?_, fun l hl => ?_, fun l n hl hn => ?_,
    outline_of_core h.core⟩
  · by_cases hl : l < u.1.2.labels.size
    · rw [h.positions_eq hl, ho]
    · rw [Session.positions_eq_some, Session.spot_of_size_le (Nat.not_lt.1 hl)] at ho
      cases ho.1
  · rcases h.spot l with h | ⟨hle, -⟩
    · exact h
    · exact absurd (hbase l hle) hl
  · exact ((h.next hbase hlast).2 l n hn).resolve_right fun h => hl h.1

theorem Appends.moves (h : Appends own u v) : Moves own u v :=
  ⟨h.pool ▸ .refl u.1.1, Nat.le_of_eq h.size.symm, fun l o ho => by rw [h.positions, ho], h.others,
    fun l _ _ hn => h.next l ▸ hn, h.outline⟩

theorem Emitted.calm (he : Emitted own items u) (h : Calm own u v) : Emitted own items v := by
  refine ⟨he.toWritten.calm h, fun i hi => (he.sound i hi).mono (h.grows he.wf).2, fun l hl => ?_,
    fun x hx => ?_, fun l hl => h.hasPending ▸ he.deferred l hl, fun hpend => ?_,
    fun l n hl hn => ?_,
    fun l hl => ?_, (h.next he.base he.last).1⟩
  · rcases h.spot l with h | ⟨-, h⟩
    · rw [h]
      exact he.bounded l hl
    · rw [h, he.codeSize]
      exact stop_mem_bounds items
  · refine (he.ahead x hx).congr fun l hl => h.positions_eq ?_
    exact (he.labels_of_item (mem_of_mem_placed hx) hl).2.1
  · obtain ⟨x, hx, hxpend⟩ := he.found (h.hasPending ▸ hpend)
    refine ⟨x, hx, ?_⟩
    rwa [isPending_congr fun l hl => h.positions_eq
      (he.labels_of_item (mem_of_mem_placed hx) hl).2.1]
  · rcases (h.next he.base he.last).2 l n hn with hn | hn
    · exact he.linked l n hl hn
    · exact hn.2
  · exact he.entry l ((congrArg Method.entry h.core : v.2.core.entry = u.2.core.entry) ▸ hl)

theorem Emitted.append {new : List Item} (he : Emitted own items u) (h : Appends own u v)
    (hw : Written own (layout 0 items ++ layout (stop 0 items) new) v)
    (hsound : ∀ i ∈ new, i.Sound v.1.1)
    (hahead : ∀ x ∈ placed (stop 0 items) new, x.2.Ahead v.1.2.positions x.1)
    (hraised : u.2.hasPending ∨ (∃ l, .wide 220 l ∈ new) ↔ v.2.hasPending) :
    Emitted own (items ++ new) v := by
  rw [← layout_append] at hw
  refine ⟨hw, fun i hi => ?_, fun l hl => ?_, fun x hx => ?_, fun l hl => ?_, fun hpend => ?_,
    fun l n hl hn => ?_, fun l hl => ?_, fun l hl => he.last l (h.lastBlock ▸ hl)⟩
  · rcases mem_append.1 hi with hi | hi
    · exact h.pool ▸ he.sound i hi
    · exact hsound i hi
  · rw [h.position]
    exact mem_bounds_append (he.bounded l hl) new
  · rw [placed_append] at hx
    rcases mem_append.1 hx with hx | hx
    · rw [h.positions]
      exact he.ahead x hx
    · exact hahead x hx
  · rcases mem_append.1 hl with hl | hl
    · exact hraised.1 (.inl (he.deferred l hl))
    · exact hraised.1 (.inr ⟨l, hl⟩)
  · rw [placed_append, h.positions]
    rcases hraised.2 hpend with hpend | ⟨l, hl⟩
    · obtain ⟨x, hx, hxpend⟩ := he.found hpend
      exact ⟨x, mem_append_left _ hx, hxpend⟩
    · obtain ⟨x, hx, hxl⟩ := exists_mem_placed hl (stop 0 items)
      exact ⟨x, mem_append_right _ hx, by rw [hxl]; rfl⟩
  · exact he.linked l n hl (h.next l ▸ hn)
  · exact he.entry l (outline_entry h.outline ▸ hl)

theorem Emitted.append_one (he : Emitted own items u) (h : Appends own u v)
    (hw : Written own (layout 0 items ++ i.pieces (stop 0 items)) v) (hsound : i.Sound v.1.1)
    (hahead : i.Ahead v.1.2.positions (stop 0 items))
    (hraised : u.2.hasPending ∨ (∃ l, i = .wide 220 l) ↔ v.2.hasPending) :
    Emitted own (items ++ [i]) v := by
  refine he.append h (by rwa [layout, layout, append_nil]) ?_ ?_ ?_
  · intro j hj
    obtain rfl := mem_singleton.1 hj
    exact hsound
  · intro x hx
    obtain rfl := mem_singleton.1 hx
    exact hahead
  · simpa only [mem_singleton, eq_comm (b := i)] using hraised

theorem Emitted.append_calm (he : Emitted own items u) (h : Emits own u v)
    (hw : Written own (layout 0 items ++ i.pieces (stop 0 items)) v) (hsound : i.Sound v.1.1)
    (hahead : i.Ahead v.1.2.positions (stop 0 items)) (hi : ∀ l, i ≠ .wide 220 l) :
    Emitted own (items ++ [i]) v := by
  refine he.append_one h.toAppends hw hsound hahead ?_
  rw [h.hasPending]
  exact or_iff_left fun ⟨l, hl⟩ => hi l hl

theorem Emitted.resolve (he : Emitted own items u) (hl : own l) (hnone : u.1.2.positions l = none)
    (e : Ends (MethodM.resolveLabel l) u () v) : Emitted own items v ∧ MethodM.Resolves l u v := by
  obtain ⟨hw, h, hraised⟩ := MethodM.written_resolveLabel he.toWritten hl hnone e
  refine ⟨⟨hw, fun i hi => h.pool ▸ he.sound i hi, fun k hk => ?_, fun x hx => ?_,
    fun k hk => h.hasPending (he.deferred k hk), fun hpend => ?_,
    fun k n hk hn => he.linked k n hk (h.next k ▸ hn),
    fun k hk => he.entry k (outline_entry h.outline ▸ hk),
    fun k hk => he.last k (h.lastBlock ▸ hk)⟩,
    h⟩
  · by_cases hkl : k = l
    · rw [hkl, h.spot, he.codeSize]
      exact stop_mem_bounds items
    · rw [h.others k hkl]
      exact he.bounded k hk
  · rw [h.positions, he.codeSize]
    exact (he.ahead x hx).update (le_of_mem_bounds (mem_append_left _ (mem_map_of_mem hx))) l
  · rcases hraised hpend with hpend | hany
    · obtain ⟨x, hx, hxpend⟩ := he.found hpend
      refine ⟨x, hx, isPending_mono (fun k t hk => ?_) hxpend⟩
      rw [h.positions, Function.update_of_ne, hk]
      rintro rfl
      exact absurd (hk.symm.trans hnone) (by simp)
    · exact exists_pending_of_any hany

theorem moves_of_resolves (h : MethodM.Resolves l u v) (hl : own l)
    (hnone : u.1.2.positions l = none) : Moves own u v := by
  refine ⟨h.pool ▸ .refl u.1.1, Nat.le_of_eq h.size.symm, fun k o ho => ?_, fun k hk => ?_,
    fun k _ _ hn => h.next k ▸ hn, h.outline⟩
  · rw [h.positions, Function.update_of_ne, ho]
    rintro rfl
    exact absurd (ho.symm.trans hnone) (by simp)
  · refine h.others k ?_
    rintro rfl
    exact hk hl

theorem Emitted.place (he : Emitted own items u) (hl : own l) (hnone : u.1.2.positions l = none)
    (e : Ends (MethodM.placeLabel l) u () v) :
    Emitted own items v ∧ Moves own u v ∧ v.1.2.positions l = some (stop 0 items) := by
  obtain ⟨_, w, h, e⟩ := e.bind
  obtain ⟨hw, hres⟩ := he.resolve hl hnone h
  have hpos : w.1.2.positions l = some (stop 0 items) := by
    rw [hres.positions, Function.update_self, he.codeSize]
  have hcalm : Calm own w v := by
    replace e := ends_get_bind.1 e
    have hheight := MethodM.calm_beginHeightBlock hl
    have hframe := MethodM.calm_beginFrameBlock hl
    split at e
    · exact (keeps_pure _).run _ _ _ e
    · exact hheight.run _ _ _ e
    · exact hframe.run _ _ _ e
    · exact e.keeps
  have hmoves : Moves own w v := hcalm.moves hw.wf hw.base hw.last
  exact ⟨hw.calm hcalm, Steps.trans (moves_of_resolves hres hl hnone) hmoves,
    hmoves.stays _ _ hpos⟩

end

end Method

end ClassAssembler
