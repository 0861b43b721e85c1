import ClassAssembler.Proofs.FrameItems
import ClassAssembler.Proofs.TypeTables

/-!
# Requests to the table of types

The methods of a class share one table of types.  They ask it for the places of classes, for the
places of objects created at an offset, and for the place of the class that the classes at two
places have in common. The answers to the last kind of request are kept, so that the hierarchy is
asked once for two places.

After any sequence of requests, equal types have equal places and different types different ones, a
place names its type for good, and a kept answer is the one that would be found now.  This holds
whatever was asked in between: each request leaves a table in which all earlier answers are still
right.
-/

namespace ClassAssembler

open SessionM

inductive TypeRequest where
  | named (name : Text)
  | fresh (name : Text) (offset : Int32)
  | merged (i j : Nat)

namespace TypeRequest

def run : TypeRequest → SessionM Nat
  | named name => placeOf name
  | fresh name offset => placeOfFresh name offset.toInt
  | merged i j => mergedPlace i j

def runAll : List TypeRequest → SessionM (List Nat)
  | [] => return []
  | r :: rs => do
    let k ← r.run
    return k :: (← runAll rs)

def type? : TypeRequest → Option TableType
  | named name => some (.named name)
  | fresh name offset => some (.fresh name offset)
  | merged .. => none

/-- A request can be answered: the places that it names are taken. -/
def Served (types : TypeTable) : TypeRequest → Prop
  | merged i j => (∃ a, types.at? i = some a) ∧ ∃ b, types.at? j = some b
  | _ => True

/-- An answer is right in a state: asked again, the request gives it and changes nothing.  The place
of a type names this type, and the place for two places is that of the class which is found now for
the names there. -/
def Right (u : Pool × Session) (r : TypeRequest) (k : Nat) : Prop :=
  Ends r.run u k u ∧
    match r with
    | named name => u.2.types.at? k = some (.named name)
    | fresh name offset => u.2.types.at? k = some (.fresh name offset)
    | merged i j => ∃ a b, u.2.types.at? i = some a ∧ u.2.types.at? j = some b ∧
        Ends (do placeOf (← commonSuper a.name b.name)) u k u

end TypeRequest

def Hierarchy.Silent (h : Hierarchy) (a b : Text) : Prop :=
  a ≠ b ∧ ¬(a = objectName ∨ b = objectName) ∧ h.common? a b = none

instance (h : Hierarchy) (a b : Text) : Decidable (h.Silent a b) :=
  inferInstanceAs (Decidable (_ ∧ _ ∧ _))

/-- A later state of the work on types: places and answers are kept, a failure is not taken back,
and the rest of the session stays as it is. -/
structure Session.Later (u v : Pool × Session) : Prop where
  grows : u.2.types.Grows v.2.types
  kept : ∀ i j k : Nat, u.2.types.merged? i j = some k → v.2.types.merged? i j = some k
  failed : v.1.failure = none → u.1.failure = none
  rest : v.2 = { u.2 with types := v.2.types }

instance : Steps Session.Later where
  refl u := ⟨Steps.refl _, fun _ _ _ => id, id, rfl⟩
  trans h h' := by
    refine ⟨Steps.trans h.grows h'.grows, fun i j k hk => h'.kept i j k (h.kept i j k hk),
      fun hv => h.failed (h'.failed hv), ?_⟩
    rw [h'.rest, h.rest]

theorem Pool.recordFailure_eq_self {p : Pool} {f : Failure} (h : p.failure ≠ none) :
    p.recordFailure f = p := by
  cases hp : p.failure with
  | some g => simp [recordFailure, hp]
  | none => exact absurd hp h

namespace SessionM

open TypeTable

variable {u v : Pool × Session} {a b c : Text} {e : TableType} {k : Nat}

/-! ## Places -/

theorem ends_fail {cause : Cause} {op : String} {args : List Value} {r : PUnit} :
    Ends (PoolM.fail cause op args : SessionM PUnit) u r v ↔
      (u.1.recordFailure ⟨cause, Text.ofString op, args⟩, u.2) = v := by
  have hlift : Ends (PoolM.fail cause op args : SessionM PUnit) u r v ↔
      Ends (PoolM.fail cause op args) u.1 r v.1 ∧ u.2 = v.2 := ends_lift
  rw [hlift, PoolM.fail, ends_pool_modify, Prod.ext_iff]

theorem exists_ends_place (u : Pool × Session) (e : TableType) :
    ∃ v, Ends (place e) u (u.2.types.add e).2.1 v ∧ v.2 = added u.2 e ∧
      (v.1.failure = none → u.1.failure = none ∧ (u.2.types.add e).2.2 = false) := by
  cases hroom : (u.2.types.add e).2.2 with
  | false => exact ⟨_, ends_place_of_room hroom, rfl, fun hnone => ⟨hnone, rfl⟩⟩
  | true =>
    refine ⟨(u.1.recordFailure ⟨.typeTableTooLarge, "addType", []⟩, added u.2 e), ?_, rfl,
      fun hnone => absurd hnone (Pool.recordFailure_ne_none _ _)⟩
    unfold place
    rw [ends_bind]
    refine ⟨_, _, ends_modifyGet.2 ⟨rfl, rfl⟩, ?_⟩
    simp only [hroom, if_true, ends_bind, ends_pure]
    exact ⟨⟨⟩, _, ends_fail.2 rfl, trivial, rfl⟩

theorem ends_place_of_at? (hu : u.2.types.Indexed) (hk : u.2.types.at? k = some e) :
    Ends (place e) u k u := by
  have hadd : u.2.types.add e = (u.2.types, k, false) := add_of_place ((hu.place e k).2 hk)
  have hend := ends_place_of_room (p := u.1) (s := u.2) (e := e) (by rw [hadd])
  rwa [added, hadd] at hend

/-! ## Common classes -/

/-- The failure that stands for two classes without a common one. -/
def noCommon (a b : Text) : Failure :=
  ⟨.noCommonSuper, "getCommonSuperClass", [.string a, .string b]⟩

/-- A common class is the one that covers two classes; only if the hierarchy has no answer about
them, a failure is recorded. -/
theorem ends_commonSuper_iff :
    Ends (commonSuper a b) u c v ↔ u.2.hierarchy.covering a b = c ∧
      (if u.2.hierarchy.Silent a b then (u.1.recordFailure (noCommon a b), u.2) else u) = v := by
  unfold commonSuper Hierarchy.covering Hierarchy.Silent
  by_cases hab : a = b
  · simp [hab]
  by_cases htop : a = objectName ∨ b = objectName
  · simp [hab, htop]
  simp only [hab, htop, if_false, not_false_eq_true, true_and, ne_eq]
  rw [ends_get_bind]
  cases hcommon : u.2.hierarchy.common? a b with
  | some d => simp
  | none =>
    simp only [ends_bind, ends_pure, ends_fail, Option.getD_none, if_true, noCommon]
    constructor
    · rintro ⟨-, w, hw, hc, rfl⟩
      exact ⟨hc, hw⟩
    · rintro ⟨hc, hv⟩
      exact ⟨⟨⟩, v, hv, hc, rfl⟩

/-- A common class that was looked for is found in every later state, and nothing more
is recorded. -/
theorem ends_commonSuper_later {w : Pool × Session} (h : Ends (commonSuper a b) u c v)
    (hw : Session.Later v w) : Ends (commonSuper a b) w c w := by
  obtain ⟨hc, hv⟩ := ends_commonSuper_iff.1 h
  have hsession : v.2 = u.2 := by
    rw [← hv]
    split <;> rfl
  have hhierarchy : w.2.hierarchy = u.2.hierarchy := by rw [hw.rest, hsession]
  refine ends_commonSuper_iff.2 ⟨by rw [hhierarchy, hc], ?_⟩
  rw [hhierarchy]
  split
  next hsilent =>
    have hfailed : w.1.failure ≠ none := by
      intro hnone
      have hnone := hw.failed hnone
      rw [← hv, if_pos hsilent] at hnone
      exact Pool.recordFailure_ne_none _ _ hnone
    rw [Pool.recordFailure_eq_self hfailed]
  next => rfl

theorem exists_ends_commonSuper (u : Pool × Session) (a b : Text) :
    ∃ c v, Ends (commonSuper a b) u c v ∧ Session.Later u v ∧ v.2 = u.2 := by
  refine ⟨_, _, ends_commonSuper_iff.2 ⟨rfl, rfl⟩, ?_⟩
  split
  · exact ⟨⟨Steps.refl _, fun _ _ _ => id,
      fun hnone => absurd hnone (Pool.recordFailure_ne_none _ _), rfl⟩, rfl⟩
  · exact ⟨Steps.refl u, rfl⟩

end SessionM

/-! ## The answers that are kept -/

/-- The table is indexed, its places fit, and every answer that it keeps would be found now. -/
structure Session.Memo (u : Pool × Session) : Prop where
  indexed : u.2.types.Indexed
  fits : u.2.types.entries.size ≤ TypeTable.maxPlace + 1
  merged : ∀ i < 0x100000000, ∀ j < 0x100000000, ∀ k, u.2.types.merged? i j = some k →
    ∃ a b c, u.2.types.at? i = some a ∧ u.2.types.at? j = some b ∧
      Ends (commonSuper a.name b.name) u c u ∧ u.2.types.at? k = some (.named c)

namespace Session.Memo

variable {u v : Pool × Session}

theorem of_empty (hu : u.2.types = {}) : Memo u := by
  refine ⟨?_, ?_, fun i _ j _ k hk => ?_⟩
  · rw [hu]
    exact TypeTable.indexed_empty
  · rw [hu]
    decide
  · have hnone : u.2.types.merged? i j = none := by
      rw [hu]
      exact SymbolTable.get?_empty _
    rw [hnone] at hk
    cases hk

/-- The places of a table without a failure are told apart in its keys. -/
theorem lt_of_at? (hu : Memo u) {i : Nat} {e : TableType} (hi : u.2.types.at? i = some e) :
    i < 0x100000000 := by
  have hlt := TypeTable.lt_size_of_at? hi
  have hfits := hu.fits
  simp only [TypeTable.maxPlace] at hfits
  omega

theorem later (hu : Memo u) (h : Later u v) (hindexed : v.2.types.Indexed)
    (hfits : v.2.types.entries.size ≤ TypeTable.maxPlace + 1)
    (hmerged : v.2.types.merged? = u.2.types.merged?) : Memo v := by
  refine ⟨hindexed, hfits, fun i hi j hj k hk => ?_⟩
  rw [hmerged] at hk
  obtain ⟨a, b, c, ha, hb, hc, hat⟩ := hu.merged i hi j hj k hk
  exact ⟨a, b, c, h.grows.at? ha, h.grows.at? hb, ends_commonSuper_later hc h, h.grows.at? hat⟩

/-- A place that was found without a failure. -/
theorem ends_place (hu : Memo u) {e : TableType} {k : Nat} (h : Ends (place e) u k v)
    (hv : v.1.failure = none) :
    Later u v ∧ Memo v ∧ v.2.types.at? k = some e ∧ v.2.types.merged? = u.2.types.merged? := by
  obtain ⟨v', hend, hsession, hfailed⟩ := exists_ends_place u e
  obtain ⟨rfl, rfl⟩ := h.unique hend
  obtain ⟨hgrows, hat⟩ := u.2.types.grows_add e
  have htypes : v.2.types = (u.2.types.add e).1 := congrArg Session.types hsession
  have hmerged : v.2.types.merged? = u.2.types.merged? := by
    rw [htypes]
    exact funext₂ (hu.indexed.merged_add e)
  have hindexed := hu.indexed.add e
  have hfits := TypeTable.size_add hu.fits (hfailed hv).2
  rw [← htypes] at hgrows hat hindexed hfits
  have hlater : Later u v := by
    refine ⟨hgrows, fun i j k hk => hmerged ▸ hk, fun hnone => (hfailed hnone).1, ?_⟩
    rw [htypes]
    exact hsession
  exact ⟨hlater, hu.later hlater hindexed hfits hmerged, hat hu.indexed.wf, hmerged⟩

/-- The place that stands for two places: what is kept is found now, and what is not is looked for
and kept. -/
theorem ends_mergedPlace (hu : Memo u) {i j k : Nat} {a b : TableType}
    (ha : u.2.types.at? i = some a) (hb : u.2.types.at? j = some b)
    (h : Ends (mergedPlace i j) u k v) (hv : v.1.failure = none) :
    Later u v ∧ Memo v ∧ v.2.types.merged? i j = some k := by
  unfold mergedPlace at h
  rw [ends_get_bind] at h
  cases hkept : u.2.types.merged? i j with
  | some k' =>
    rw [hkept] at h
    obtain ⟨rfl, rfl⟩ := h.pure
    exact ⟨Steps.refl u, hu, hkept⟩
  | none =>
    simp only [hkept, ends_bind] at h
    obtain ⟨a', u₁, ha', b', u₂, hb', c, w, hc, k', w', hk, _, _, hmodify, hpure⟩ := h
    obtain ⟨rfl, rfl⟩ := ha'.unique (ends_typeAt_of_at? ha)
    obtain ⟨rfl, rfl⟩ := hb'.unique (ends_typeAt_of_at? hb)
    obtain rfl := ends_modify.1 hmodify
    obtain ⟨rfl, rfl⟩ := hpure.pure
    replace hv : w'.1.failure = none := hv
    obtain ⟨c', w₁, hc', hlater, hsession⟩ := exists_ends_commonSuper u a'.name b'.name
    obtain ⟨rfl, rfl⟩ := hc.unique hc'
    have hw : Memo w := hu.later hlater (hsession ▸ hu.indexed) (hsession ▸ hu.fits)
      (by rw [hsession])
    obtain ⟨hlater', hw', hat, hmerged⟩ := hw.ends_place hk hv
    have hall : Later u w' := Steps.trans hlater hlater'
    -- the answer is new, so remembering it takes no other one away
    have hnew : w'.2.types.merged? i j = none := by
      rw [hmerged, hsession, hkept]
    have hremember : Later w' (w'.1, { w'.2 with types := w'.2.types.remember i j k' }) := by
      refine ⟨w'.2.types.grows_remember i j k', fun i' j' l hl => ?_, id, rfl⟩
      refine (hw'.indexed.merged_remember hnew i' j').trans ((if_neg fun h => ?_).trans hl)
      obtain ⟨e, he, hagrees⟩ := SymbolTable.exists_of_find? hl
      exact SymbolTable.not_agrees_of_get? (fun _ => hnew) (TypeTable.isPlain_ofPlaces i' j') h he
        hagrees
    refine ⟨Steps.trans hall hremember,
      ⟨hw'.indexed.remember hnew, hw'.fits, fun i' hi' j' hj' l hl => ?_⟩, ?_⟩
    · replace hl : (w'.2.types.remember i j k').merged? i' j' = some l := hl
      rw [hw'.indexed.merged_remember hnew] at hl
      split at hl
      next heq =>
        obtain ⟨rfl, rfl⟩ := TypeTable.ofPlaces_inj hi' hj' (hu.lt_of_at? ha) (hu.lt_of_at? hb) heq
        cases hl
        exact ⟨a', b', c, hall.grows.at? ha, hall.grows.at? hb,
          ends_commonSuper_later hc (Steps.trans hlater' hremember), hat⟩
      next =>
        obtain ⟨d, d', c', hd, hd', hc', hat'⟩ := hw'.merged i' hi' j' hj' l hl
        exact ⟨d, d', c', hd, hd', ends_commonSuper_later hc' hremember, hat'⟩
    · exact (hw'.indexed.merged_remember hnew i j).trans (if_pos (TableKey.agrees_refl _))

end Session.Memo

namespace TypeRequest

open Session

variable {u v w : Pool × Session} {r : TypeRequest} {rs : List TypeRequest} {k : Nat}
  {ks : List Nat}

theorem run_of_type {e : TableType} (hr : r.type? = some e) : r.run = place e := by
  cases r with
  | named name => exact congrArg place (Option.some.inj hr)
  | fresh name offset =>
    obtain rfl := Option.some.inj hr
    simp [run, placeOfFresh]
  | merged i j => cases hr

theorem right_of_type {e : TableType} (hr : r.type? = some e) (hu : Memo u)
    (hk : u.2.types.at? k = some e) : r.Right u k := by
  have hend := ends_place_of_at? hu.indexed hk
  rw [← run_of_type hr] at hend
  cases r with
  | merged i j => cases hr
  | _ =>
    cases hr
    exact ⟨hend, hk⟩

theorem right_of_merged {i j : Nat} {a b : TableType} (hu : Memo u) (ha : u.2.types.at? i = some a)
    (hb : u.2.types.at? j = some b) (hk : u.2.types.merged? i j = some k) :
    (merged i j).Right u k := by
  obtain ⟨a, b, c, ha, hb, hc, hat⟩ := hu.merged i (hu.lt_of_at? ha) j (hu.lt_of_at? hb) k hk
  refine ⟨?_, a, b, ha, hb, ends_bind.2 ⟨c, u, hc, ends_place_of_at? hu.indexed hat⟩⟩
  unfold run mergedPlace
  rw [ends_get_bind, hk]
  exact ends_pure.2 ⟨rfl, rfl⟩

theorem Right.later (hu : Memo u) (hv : Memo v) (hlater : Later u v) (hfail : u.1.failure = none)
    (h : r.Right u k) : r.Right v k := by
  cases r with
  | named name => exact right_of_type rfl hv (hlater.grows.at? h.2)
  | fresh name offset => exact right_of_type rfl hv (hlater.grows.at? h.2)
  | merged i j =>
    obtain ⟨a, b, ha, hb, -⟩ := h.2
    obtain ⟨-, -, hkept⟩ := hu.ends_mergedPlace ha hb h.1 hfail
    exact right_of_merged hv (hlater.grows.at? ha) (hlater.grows.at? hb) (hlater.kept i j k hkept)

/-- A request about places that are taken is answered. -/
theorem exists_run (hr : r.Served u.2.types) : ∃ k v, Ends r.run u k v := by
  cases r with
  | merged i j =>
    obtain ⟨⟨a, ha⟩, b, hb⟩ := hr
    unfold run mergedPlace
    simp only [ends_get_bind]
    cases hkept : u.2.types.merged? i j with
    | some k => exact ⟨k, u, ends_pure.2 ⟨rfl, rfl⟩⟩
    | none =>
      obtain ⟨c, v, hc, -⟩ := exists_ends_commonSuper u a.name b.name
      obtain ⟨w, hw, -⟩ := exists_ends_place v (.named c)
      simp only [ends_bind]
      exact ⟨_, _, a, u, ends_typeAt_of_at? ha, b, u, ends_typeAt_of_at? hb, c, v, hc, _, w, hw,
        ⟨⟩, _, ends_modify.2 rfl, ends_pure.2 ⟨rfl, rfl⟩⟩
  | named name =>
    obtain ⟨v, hv, -⟩ := exists_ends_place u (.named name)
    exact ⟨_, v, hv⟩
  | fresh name offset =>
    obtain ⟨v, hv, -⟩ := exists_ends_place u (.fresh name (.ofInt offset.toInt))
    exact ⟨_, v, hv⟩

theorem right_run (hu : Memo u) (hr : r.Served u.2.types) (e : Ends r.run u k v)
    (hv : v.1.failure = none) : Later u v ∧ Memo v ∧ r.Right v k := by
  have htype {d : TableType} (hd : r.type? = some d) : Later u v ∧ Memo v ∧ r.Right v k := by
    obtain ⟨hlater, hmemo, hat, -⟩ := hu.ends_place (run_of_type hd ▸ e) hv
    exact ⟨hlater, hmemo, right_of_type hd hmemo hat⟩
  cases r with
  | named name => exact htype rfl
  | fresh name offset => exact htype rfl
  | merged i j =>
    obtain ⟨⟨a, ha⟩, b, hb⟩ := hr
    obtain ⟨hlater, hmemo, hkept⟩ := hu.ends_mergedPlace ha hb e hv
    exact ⟨hlater, hmemo, right_of_merged hmemo (hlater.grows.at? ha) (hlater.grows.at? hb) hkept⟩

/-! ## Sequences of requests -/

/-- Some request, when it is its turn, asks about a place that is not taken. -/
def Unserved (u : Pool × Session) (rs : List TypeRequest) : Prop :=
  ∃ before r after ks v, rs = before ++ r :: after ∧ Ends (runAll before) u ks v ∧
    ¬ r.Served v.2.types

theorem ends_runAll_trans {rs' : List TypeRequest} {ks' : List Nat} (h : Ends (runAll rs) u ks v)
    (h' : Ends (runAll rs') v ks' w) : Ends (runAll (rs ++ rs')) u (ks ++ ks') w := by
  induction rs generalizing u ks with
  | nil =>
    obtain ⟨rfl, rfl⟩ := h.pure
    exact h'
  | cons r rs ih =>
    simp only [List.cons_append, runAll, ends_bind, ends_pure] at h ⊢
    obtain ⟨k, u', hk, ks₁, v', hks, rfl, rfl⟩ := h
    exact ⟨k, u', hk, _, w, ih hks, rfl, rfl⟩

theorem ends_runAll_append {rs' : List TypeRequest} (e : Ends (runAll (rs ++ rs')) u ks w) :
    ∃ v, Ends (runAll rs) u (ks.take rs.length) v ∧ Ends (runAll rs') v (ks.drop rs.length) w := by
  induction rs generalizing u ks with
  | nil => exact ⟨u, ends_pure.2 ⟨rfl, rfl⟩, e⟩
  | cons r rs ih =>
    simp only [List.cons_append, runAll, ends_bind, ends_pure] at e
    obtain ⟨k, u', hk, ks', w', hks, rfl, rfl⟩ := e
    obtain ⟨v, h, h'⟩ := ih hks
    refine ⟨v, ?_, h'⟩
    simp only [runAll, ends_bind, ends_pure]
    exact ⟨k, u', hk, _, _, h, rfl, rfl⟩

theorem no_failure_runAll (e : Ends (runAll rs) u ks v) (hv : v.1.failure = none) :
    u.1.failure = none := by
  have hrun (r : TypeRequest) : Keeps Quiet r.run := by
    cases r <;> (unfold run; infer_instance)
  have hall : Keeps Quiet (runAll rs) := by
    clear e
    induction rs with
    | nil => exact keeps_pure _
    | cons r rs ih => exact Keeps.bind (hrun r) fun _ => Keeps.bind ih fun _ => inferInstance
  exact (hall.run u ks v e).grows.onward.no_failure hv

/-- Requests that can be answered in turn are answered, and without a failure the answers
are right. -/
theorem exists_runAll (h : ¬ Unserved u rs) : ∃ ks v, Ends (runAll rs) u ks v ∧
    (Memo u → v.1.failure = none → Later u v ∧ Memo v ∧ List.Forall₂ (Right v) rs ks) := by
  induction rs generalizing u with
  | nil => exact ⟨[], u, ends_pure.2 ⟨rfl, rfl⟩, fun hu _ => ⟨Steps.refl u, hu, .nil⟩⟩
  | cons r rs ih =>
    have hserved : r.Served u.2.types := by
      by_contra hnot
      exact h ⟨[], r, rs, [], u, rfl, ends_pure.2 ⟨rfl, rfl⟩, hnot⟩
    obtain ⟨k, w, hk⟩ := exists_run hserved
    have hrest : ¬ Unserved w rs := by
      rintro ⟨before, r', after, ks, v, rfl, hks, hnot⟩
      refine h ⟨r :: before, r', after, k :: ks, v, rfl, ?_, hnot⟩
      simp only [runAll, ends_bind, ends_pure]
      exact ⟨k, w, hk, ks, v, hks, rfl, rfl⟩
    obtain ⟨ks, v, hks, hright⟩ := ih hrest
    refine ⟨k :: ks, v, ?_, fun hu hv => ?_⟩
    · simp only [runAll, ends_bind, ends_pure]
      exact ⟨k, w, hk, ks, v, hks, rfl, rfl⟩
    · have hw := no_failure_runAll hks hv
      obtain ⟨hlater, hmemo, hfirst⟩ := right_run hu hserved hk hw
      obtain ⟨hlater', hmemo', hrights⟩ := hright hmemo hv
      exact ⟨Steps.trans hlater hlater', hmemo',
        .cons (hfirst.later hmemo hmemo' hlater' hw) hrights⟩

theorem eq_iff_of_right {k' : Nat} {r' : TypeRequest} {e e' : TableType} (hv : Memo v)
    (hr : r.type? = some e) (hr' : r'.type? = some e') (h : r.Right v k) (h' : r'.Right v k') :
    k = k' ↔ r = r' := by
  have hat {r : TypeRequest} {e : TableType} {k : Nat} (hr : r.type? = some e) (h : r.Right v k) :
      v.2.types.at? k = some e := by
    cases r with
    | merged i j => cases hr
    | _ =>
      cases hr
      exact h.2
  constructor
  · rintro rfl
    obtain rfl : e = e' := Option.some.inj ((hat hr h).symm.trans (hat hr' h'))
    cases r <;> cases r' <;> cases hr <;> cases hr' <;> rfl
  · rintro rfl
    obtain rfl : e = e' := Option.some.inj (hr.symm.trans hr')
    exact hv.indexed.inj (hat hr h) (hat hr' h')

end TypeRequest

end ClassAssembler
