import ClassAssembler.Proofs.Calm
import ClassAssembler.Proofs.Items

/-!
# Code that is being written

`Method.Written own ps u` says that the code of a method consists of the pieces `ps`, encoded with
the positions that the labels have so far, and that the labels of the method, those in `own`, know
which jumps wait for them.  Every step of writing keeps this up: work that leaves the code alone,
appended bytes and distances, and labels that get their positions.
-/

namespace ClassAssembler

open Piece List Session

variable {l : LabelId} {s : Session}

def Session.positions (s : Session) : Positions := fun l =>
  if (s.spot l).isResolved then some (s.spot l).position else none

theorem Session.positions_congr {t : Session} (hres : (t.spot l).isResolved = (s.spot l).isResolved)
    (hpos : (t.spot l).position = (s.spot l).position) : t.positions l = s.positions l := by
  simp only [positions, hres, hpos]

theorem Session.positions_eq_none : s.positions l = none ↔ (s.spot l).isResolved = false := by
  simp [positions]

theorem Session.positions_eq_some {o : Nat} :
    s.positions l = some o ↔ (s.spot l).isResolved = true ∧ (s.spot l).position = o := by
  simp [positions]

theorem Session.spot_of_label {b : Label} (h : s.labels[l]? = some b) : s.spot l = b.spot := by
  simp [spot, h]

namespace Method

abbrev State := (Pool × Session) × Method

/-- A method without its code and what the analysis of its blocks finds out. -/
def outline (m : Method) : Method :=
  { m.core with code := {}, forward := #[], hasPending := false }

theorem outline_of_core {m m' : Method} (h : m'.core = m.core) : m'.outline = m.outline := by
  simp only [outline, h]

/-- The code of a method consists of pieces; `own` are the labels of the method. -/
structure Written (own : LabelId → Prop) (ps : List Piece) (u : State) : Prop where
  wf : u.1.1.Wf
  base : ∀ n, u.1.2.labels.size ≤ n → own n
  code : u.2.code.toList = encodeAll u.1.2.positions 0 ps
  waits : ∀ l, own l → u.1.2.positions l = none →
    (u.1.2.spot l).pending.toList = waitingAll l 0 ps
  labels : ∀ p ∈ ps, ∀ l, p.label? = some l →
    own l ∧ l < u.1.2.labels.size ∧ (u.1.2.positions l = none → l ∈ u.2.forward)
  pending : anyPending u.1.2.positions 0 ps → u.2.hasPending

theorem Written.size {own : LabelId → Prop} {ps : List Piece} {u : State} (h : Written own ps u) :
    u.2.code.size = sizeAll ps := by
  rw [← length_encodeAll u.1.2.positions 0 ps, ← h.code]
  exact Array.length_toList.symm

/-! ## Work that leaves the code alone -/

section

variable {own : LabelId → Prop} {ps : List Piece} {u v : State}

theorem Calm.forward (h : Calm own u v) : v.2.forward = u.2.forward :=
  (congrArg Method.forward h.core : v.2.core.forward = u.2.core.forward)

theorem Calm.hasPending (h : Calm own u v) : v.2.hasPending = u.2.hasPending :=
  (congrArg Method.hasPending h.core : v.2.core.hasPending = u.2.core.hasPending)

theorem Calm.code (h : Calm own u v) : v.2.code = u.2.code := code_of_core h.core

theorem Calm.spot_eq (h : Calm own u v) {l : LabelId} (hl : l < u.1.2.labels.size) :
    v.1.2.spot l = u.1.2.spot l := by
  rcases h.spot l with h | ⟨hle, -⟩
  · exact h
  · exact absurd hle (Nat.not_le.2 hl)

theorem Calm.positions_eq (h : Calm own u v) {l : LabelId} (hl : l < u.1.2.labels.size) :
    v.1.2.positions l = u.1.2.positions l := by
  simp only [positions, h.spot_eq hl]

theorem Written.calm (hw : Written own ps u) (h : Calm own u v) : Written own ps v := by
  have hsame : ∀ p ∈ ps, ∀ l, p.label? = some l → v.1.2.positions l = u.1.2.positions l :=
    fun p hp l hl => h.positions_eq (hw.labels p hp l hl).2.1
  refine ⟨(h.grows hw.wf).1, fun n hn => hw.base n (Nat.le_trans h.size hn), ?_,
    fun l hl hnone => ?_, fun p hp l hl => ?_, fun hpend => ?_⟩
  · rw [h.code, hw.code, encodeAll_congr hsame]
  · rcases h.spot l with hspot | ⟨-, hspot⟩
    · have hu : u.1.2.positions l = none := by
        rw [positions_eq_none] at hnone ⊢
        rw [← hspot, hnone]
      rw [hspot, hw.waits l hl hu]
    · rw [positions_eq_none, hspot] at hnone
      cases hnone
  · obtain ⟨hown, hlt, hforward⟩ := hw.labels p hp l hl
    refine ⟨hown, Nat.lt_of_lt_of_le hlt h.size, fun hnone => ?_⟩
    rw [h.forward]
    exact hforward (by rw [← hsame p hp l hl, hnone])
  · rw [h.hasPending]
    rw [anyPending_congr hsame] at hpend
    exact hw.pending hpend

end

/-! ## Appending -/

/-- Bytes and distances are appended: labels keep their positions, and the method all but its code
and whether a jump is pending. -/
structure Appends (own : LabelId → Prop) (u v : State) : Prop where
  pool : v.1.1 = u.1.1
  size : v.1.2.labels.size = u.1.2.labels.size
  position : ∀ l, (v.1.2.spot l).position = (u.1.2.spot l).position
  isResolved : ∀ l, (v.1.2.spot l).isResolved = (u.1.2.spot l).isResolved
  others : ∀ l, ¬ own l → v.1.2.spot l = u.1.2.spot l
  next : ∀ l, v.1.2.next l = u.1.2.next l
  outline : v.2.outline = u.2.outline
  lastBlock : v.2.lastBlock = u.2.lastBlock

/-- Bytes and distances are appended, and no jump becomes pending. -/
structure Emits (own : LabelId → Prop) (u v : State) : Prop extends Appends own u v where
  hasPending : v.2.hasPending = u.2.hasPending

theorem Appends.positions {own : LabelId → Prop} {u v : State} (h : Appends own u v) :
    v.1.2.positions = u.1.2.positions :=
  funext fun l => positions_congr (h.isResolved l) (h.position l)

instance (own : LabelId → Prop) : Steps (Appends own) where
  refl _ := ⟨rfl, rfl, fun _ => rfl, fun _ => rfl, fun _ _ => rfl, fun _ => rfl, rfl, rfl⟩
  trans h h' :=
    ⟨h'.pool.trans h.pool, h'.size.trans h.size, fun l => (h'.position l).trans (h.position l),
      fun l => (h'.isResolved l).trans (h.isResolved l),
      fun l hl => (h'.others l hl).trans (h.others l hl), fun l => (h'.next l).trans (h.next l),
      h'.outline.trans h.outline, h'.lastBlock.trans h.lastBlock⟩

instance (own : LabelId → Prop) : Steps (Emits own) where
  refl u := ⟨Steps.refl u, rfl⟩
  trans h h' := ⟨Steps.trans h.toAppends h'.toAppends, h'.hasPending.trans h.hasPending⟩

section

variable {own : LabelId → Prop} {ps : List Piece} {u : State}

variable {l : LabelId}

theorem emits_code (b : Buffer) : Emits own u (u.1, { u.2 with code := b }) :=
  ⟨⟨rfl, rfl, fun _ => rfl, fun _ => rfl, fun _ _ => rfl, fun _ => rfl, rfl, rfl⟩, rfl⟩

theorem Written.append_resolved {p : Piece} {o : Nat} {b : Buffer} (hw : Written own ps u)
    (hl : own l) (hlt : l < u.1.2.labels.size) (hp : p.label? = some l)
    (ho : u.1.2.positions l = some o)
    (hb : b.toList = u.2.code.toList ++ p.encode u.1.2.positions (sizeAll ps))
    (hpend : p.isPending u.1.2.positions (sizeAll ps) = false) :
    Written own (ps ++ [p]) (u.1, { u.2 with code := b }) := by
  refine ⟨hw.wf, hw.base, ?_, fun k hk hnone => ?_, fun q hq k hk => ?_, fun h => ?_⟩
  · rw [hb, hw.code, encodeAll_append, Nat.zero_add, encodeAll, encodeAll,
      append_nil]
  · have hkl : k ≠ l := by
      rintro rfl
      exact absurd (ho.symm.trans hnone) (by simp)
    rw [hw.waits k hk hnone, waitingAll_append, Nat.zero_add]
    cases p with
    | bytes bs => cases hp
    | short op k' =>
      obtain rfl := Option.some.inj hp
      simp [waitingAll, waiting, hkl.symm]
    | wide source k' =>
      obtain rfl := Option.some.inj hp
      simp [waitingAll, waiting, hkl.symm]
  · rcases mem_append.1 hq with hq | hq
    · exact hw.labels q hq k hk
    · obtain rfl := mem_singleton.1 hq
      obtain rfl := Option.some.inj (hp.symm.trans hk)
      exact ⟨hl, hlt, fun hnone => absurd (ho.symm.trans hnone) (by simp)⟩
  · rw [anyPending_append, Nat.zero_add, anyPending, anyPending, hpend] at h
    exact hw.pending (by simpa using h)

/-- The state in which one more jump waits for a label, behind some code. -/
def waitFor (u : State) (l : LabelId) (j : PendingJump) (b : Buffer) : State :=
  ((u.1.1, u.1.2.changeLabel l fun k => { k with pending := k.pending.push j }),
    { u.2 with forward := u.2.forward.push l, code := b })

theorem spot_waitFor (u : State) (l : LabelId) (j : PendingJump) (b : Buffer) (k : LabelId) :
    (waitFor u l j b).1.2.spot k =
      if l = k ∧ k < u.1.2.labels.size then
        { u.1.2.spot k with pending := (u.1.2.spot k).pending.push j }
      else u.1.2.spot k :=
  spot_changeLabel (g := fun s => { s with pending := s.pending.push j }) (by intro; rfl) k

theorem emits_waitFor (hl : own l) (j : PendingJump) (b : Buffer) :
    Emits own u (waitFor u l j b) := by
  refine ⟨⟨rfl, by simp [waitFor], fun k => ?_, fun k => ?_, fun k hk => ?_, fun k => ?_, rfl, rfl⟩,
    rfl⟩
  · rw [spot_waitFor]
    split <;> rfl
  · rw [spot_waitFor]
    split <;> rfl
  · rw [spot_waitFor, if_neg]
    rintro ⟨rfl, -⟩
    exact hk hl
  · simp only [waitFor]
    rw [next_changeLabel (g := id) (by intro; rfl)]
    simp

theorem Written.append_waiting {p : Piece} {j : PendingJump} {b : Buffer} (hw : Written own ps u)
    (hl : own l) (hlt : l < u.1.2.labels.size) (hp : p.label? = some l)
    (hnone : u.1.2.positions l = none) (hj : p.waiting l (sizeAll ps) = [j])
    (hb : b.toList = u.2.code.toList ++ p.encode u.1.2.positions (sizeAll ps)) :
    Written own (ps ++ [p]) (waitFor u l j b) := by
  have hpos : (waitFor u l j b).1.2.positions = u.1.2.positions :=
    (emits_waitFor hl j b).positions
  have hsize : (waitFor u l j b).1.2.labels.size = u.1.2.labels.size :=
    (emits_waitFor hl j b).size
  refine ⟨hw.wf, fun n hn => hw.base n (hsize ▸ hn), ?_, fun k hk hk' => ?_, fun q hq k hk => ?_,
    fun h => ?_⟩
  · rw [hpos, encodeAll_append, Nat.zero_add, encodeAll, encodeAll, append_nil,
      ← hw.code]
    exact hb
  · rw [hpos] at hk'
    rw [spot_waitFor, waitingAll_append, Nat.zero_add, ← hw.waits k hk hk', waitingAll,
      waitingAll, append_nil]
    split
    next h =>
      obtain ⟨rfl, -⟩ := h
      rw [hj, Array.toList_push]
    next h =>
      have hkl : l ≠ k := fun hkl => h ⟨hkl, hkl ▸ hlt⟩
      cases p with
      | bytes bs => cases hp
      | short op k' =>
        obtain rfl := Option.some.inj hp
        simp [waiting, hkl]
      | wide source k' =>
        obtain rfl := Option.some.inj hp
        simp [waiting, hkl]
  · rw [hpos, hsize]
    rcases mem_append.1 hq with hq | hq
    · obtain ⟨hown, hk, hforward⟩ := hw.labels q hq k hk
      exact ⟨hown, hk, fun h => Array.mem_push_of_mem l (hforward h)⟩
    · obtain rfl := mem_singleton.1 hq
      obtain rfl := Option.some.inj (hp.symm.trans hk)
      exact ⟨hl, hlt, fun _ => Array.mem_push_self⟩
  · have hpend : p.isPending u.1.2.positions (sizeAll ps) = false := by
      cases p with
      | bytes bs => rfl
      | short op k =>
        obtain rfl := Option.some.inj hp
        simp only [isPending, hnone]
      | wide source k => rfl
    rw [hpos, anyPending_append, Nat.zero_add, anyPending, anyPending, hpend] at h
    exact hw.pending (by simpa using h)

end

end Method

namespace MethodM

open Method

theorem ends_checked {α : Type} {x : Checked α} {u v : State} {a : α} :
    Ends (liftM x : MethodM α) u a v ↔ x = .ok a ∧ u = v := by
  rw [ends_lift, ends_lift, ClassAssembler.ends_checked]
  constructor
  · rintro ⟨⟨⟨hx, hp⟩, hs⟩, hm⟩
    exact ⟨hx, Prod.ext (Prod.ext hp hs) hm⟩
  · rintro ⟨hx, rfl⟩
    exact ⟨⟨⟨hx, rfl⟩, rfl⟩, rfl⟩

theorem ends_emit {f : Buffer → Buffer} {u v : State} {a : Unit} :
    Ends (emit f) u a v ↔ (u.1, { u.2 with code := f u.2.code }) = v :=
  ends_modify

section

variable {own : LabelId → Prop} {ps : List Piece} {u v : State}

variable {l : LabelId}

theorem ends_emit_bytes {f : Buffer → Buffer} {bs : List UInt8} (hw : Written own ps u)
    (hf : (f u.2.code).toList = u.2.code.toList ++ bs) (e : Ends (emit f) u () v) :
    Written own (ps ++ [.bytes bs]) v ∧ Emits own u v := by
  obtain rfl := ends_emit.1 e
  refine ⟨⟨hw.wf, hw.base, ?_, fun l hl hnone => ?_, fun p hp l hl => ?_, fun hpend => ?_⟩,
    emits_code _⟩
  · rw [hf, hw.code, encodeAll_append, encodeAll, encodeAll, append_nil,
      encode]
  · rw [hw.waits l hl hnone, waitingAll_append]
    simp [waitingAll, waiting]
  · rcases mem_append.1 hp with hp | hp
    · exact hw.labels p hp l hl
    · obtain rfl := mem_singleton.1 hp
      cases hl
  · rw [anyPending_append] at hpend
    exact hw.pending (by simpa [anyPending, isPending] using hpend)

def putDistance (isWide : Bool) (d : Int) (b : Buffer) : Buffer :=
  if isWide then b.putInt d else b.putShort d

theorem toList_putDistance (isWide : Bool) (d : Int) (b : Buffer) :
    (putDistance isWide d b).toList =
      b.toList ++ if isWide then Buffer.bytes32 d else Buffer.bytes16 d := by
  cases isWide with
  | false => simp [putDistance, Buffer.bytes16]
  | true => simp [putDistance, Buffer.putInt]

theorem ends_emitDistance {source : Nat} {isWide : Bool}
    (e : Ends (emitDistance l source isWide) u () v) : l < u.1.2.labels.size ∧
      ((∃ o, u.1.2.positions l = some o ∧
          v = (u.1, { u.2 with code := putDistance isWide (o - source) u.2.code })) ∨
        u.1.2.positions l = none ∧
          v = waitFor u l ⟨source, u.2.code.size, isWide⟩ (putDistance isWide (-1) u.2.code)) := by
  obtain ⟨b, ⟨u₁, m₁⟩, h₁, e⟩ := e.bind
  obtain ⟨h₁, rfl⟩ := h₁.lift
  obtain ⟨hb, rfl⟩ := SessionM.ends_label h₁
  have hspot := spot_of_label hb
  refine ⟨(Array.getElem?_eq_some_iff.1 hb).1, ?_⟩
  split at e
  next hres =>
    obtain rfl := ends_emit.1 e
    refine .inl ⟨b.position, ?_, rfl⟩
    rw [positions_eq_some, hspot]
    exact ⟨hres, rfl⟩
  next hres =>
    simp only [ends_bind] at e
    obtain ⟨n, _, hn, _, _, hm, _, ⟨u₃, m₃⟩, hl, e⟩ := e
    obtain ⟨rfl, rfl⟩ := ends_codeSize.1 hn
    obtain rfl := hm.modify
    obtain ⟨hl, rfl⟩ := hl.lift
    obtain rfl := SessionM.ends_modifyLabel.1 hl
    obtain rfl := ends_emit.1 e
    refine .inr ⟨?_, rfl⟩
    rw [positions_eq_none, hspot]
    exact Bool.of_not_eq_true hres

theorem ends_emitDistance_wide {source : Nat} (hw : Written own ps u) (hl : own l)
    (e : Ends (emitDistance l source true) u () v) :
    Written own (ps ++ [.wide source l]) v ∧ Emits own u v := by
  obtain ⟨hlt, ⟨o, ho, rfl⟩ | ⟨hnone, rfl⟩⟩ := ends_emitDistance e
  · refine ⟨hw.append_resolved hl hlt rfl ho ?_ rfl, emits_code _⟩
    rw [toList_putDistance, encode, ho]
    rfl
  · refine ⟨hw.append_waiting hl hlt rfl hnone ?_ ?_, emits_waitFor hl _ _⟩
    · rw [waiting, if_pos rfl, hw.size]
    · rw [toList_putDistance, encode, hnone]
      rfl

theorem ends_emit_short {op : Int} {w : State} (hw : Written own ps u) (hl : own l)
    (hfit : ∀ o, u.1.2.positions l = some o → Buffer.fitsShort (o - u.2.code.size))
    (e : Ends (emit fun b => b.putByte op) u () w)
    (e' : Ends (emitDistance l u.2.code.size false) w () v) :
    Written own (ps ++ [.short (Buffer.low8 op) l]) v ∧ Emits own u v := by
  obtain rfl := ends_emit.1 e
  have hlen : (u.2.code.putByte op).size = sizeAll ps + 1 := by
    rw [← hw.size]
    simpa [Buffer.toList, Buffer.size] using
      congrArg length (Buffer.toList_putByte u.2.code op)
  obtain ⟨hlt, ⟨o, ho, rfl⟩ | ⟨hnone, rfl⟩⟩ := ends_emitDistance e'
  · have hfit := hfit o ho
    rw [hw.size] at hfit
    refine ⟨hw.append_resolved hl hlt rfl ho ?_ ?_, emits_code _⟩
    · rw [toList_putDistance, Buffer.toList_putByte, hw.size]
      simp [encode, ho, jumpBytes, hfit]
    · simp only [isPending, ho, hfit, Bool.not_true]
  · refine ⟨hw.append_waiting hl hlt rfl hnone ?_ ?_, emits_waitFor hl _ _⟩
    · rw [waiting, if_pos rfl, hw.size]
      simp only [hlen]
    · rw [toList_putDistance, encode, hnone, Buffer.toList_putByte]
      simp

/-! ## Positions -/

theorem ends_resolveLabel (e : Ends (resolveLabel l) u () v) :
    l < u.1.2.labels.size ∧ ∃ b pending,
      u.2.code.settleJumps u.2.code.size (u.1.2.spot l).pending.toList false = .ok (b, pending) ∧
      v = ((u.1.1, u.1.2.changeLabel l fun k =>
          { k with isResolved := true, position := u.2.code.size, pending := #[] }),
        { u.2 with code := b, hasPending := u.2.hasPending || pending }) := by
  simp only [resolveLabel, ends_bind] at e
  obtain ⟨k, ⟨u₁, m₁⟩, h₁, n, _, h₂, _, ⟨u₃, m₃⟩, h₃, e⟩ := e
  obtain ⟨h₁, rfl⟩ := h₁.lift
  obtain ⟨hk, rfl⟩ := SessionM.ends_label h₁
  obtain ⟨rfl, rfl⟩ := ends_codeSize.1 h₂
  obtain ⟨h₃, rfl⟩ := h₃.lift
  obtain rfl := SessionM.ends_modifyLabel.1 h₃
  refine ⟨(Array.getElem?_eq_some_iff.1 hk).1, ?_⟩
  rw [spot_of_label hk]
  split at e
  next hempty =>
    obtain ⟨-, rfl⟩ := e.pure
    refine ⟨u.2.code, false, ?_, by simp⟩
    have hnil : k.pending.toList = [] := by simpa using hempty
    rw [show k.spot.pending = k.pending from rfl, hnil]
    rfl
  next hwaits =>
    simp only [ends_bind, ends_modifyGet] at e
    obtain ⟨_, _, ⟨rfl, rfl⟩, ⟨b, pending⟩, _, h₅, e⟩ := e
    obtain ⟨hsettle, rfl⟩ := MethodM.ends_checked.1 h₅
    obtain rfl := e.modify
    exact ⟨b, pending, hsettle, rfl⟩

/-- A label gets the end of the code as its position. -/
structure Resolves (l : LabelId) (u v : State) : Prop where
  pool : v.1.1 = u.1.1
  size : v.1.2.labels.size = u.1.2.labels.size
  spot : v.1.2.spot l = ⟨u.2.code.size, true, #[]⟩
  others : ∀ k, k ≠ l → v.1.2.spot k = u.1.2.spot k
  next : ∀ k, v.1.2.next k = u.1.2.next k
  outline : v.2.outline = u.2.outline
  lastBlock : v.2.lastBlock = u.2.lastBlock
  forward : v.2.forward = u.2.forward
  codeSize : v.2.code.size = u.2.code.size
  hasPending : u.2.hasPending → v.2.hasPending

theorem Resolves.positions (h : Resolves l u v) :
    v.1.2.positions = Function.update u.1.2.positions l (some u.2.code.size) := by
  funext k
  by_cases hk : k = l
  · subst hk
    rw [Function.update_self, positions_eq_some, h.spot]
    exact ⟨rfl, rfl⟩
  · rw [Function.update_of_ne hk]
    simp only [Session.positions, h.others k hk]

theorem written_resolveLabel (hw : Written own ps u) (hl : own l) (hnone : u.1.2.positions l = none)
    (e : Ends (resolveLabel l) u () v) :
    Written own ps v ∧ Resolves l u v ∧
      (v.2.hasPending → u.2.hasPending ∨ anyPending v.1.2.positions 0 ps) := by
  obtain ⟨hlt, b, pending, hsettle, rfl⟩ := ends_resolveLabel e
  rw [hw.waits l hl hnone] at hsettle
  have hcode : u.2.code.toList =
      [] ++ (encodeAll u.1.2.positions ([] : List UInt8).length ps ++ []) := by
    simpa using hw.code
  obtain ⟨b', pending', hsettle', hb, hpend, -, hback⟩ :=
    Buffer.settleJumps_encodeAll hnone u.2.code.size ps false hcode
  obtain ⟨rfl, rfl⟩ : b = b' ∧ pending = pending' := by
    simpa using hsettle.symm.trans hsettle'
  have hresolves : Resolves l u ((u.1.1, u.1.2.changeLabel l fun k =>
        { k with isResolved := true, position := u.2.code.size, pending := #[] }),
      { u.2 with code := b, hasPending := u.2.hasPending || pending }) := by
    refine ⟨rfl, by simp, ?_, fun k hk => ?_, fun k => ?_, rfl, rfl, rfl, ?_, fun h => by simp [h]⟩
    · rw [spot_changeLabel (g := fun _ => ⟨u.2.code.size, true, #[]⟩) (by intro; rfl),
        if_pos ⟨rfl, hlt⟩]
    · rw [spot_changeLabel (g := fun _ => ⟨u.2.code.size, true, #[]⟩) (by intro; rfl),
        if_neg fun h => hk h.1.symm]
    · rw [next_changeLabel (g := id) (by intro; rfl)]
      simp
    · have hlen := congrArg length hb
      rw [nil_append, append_nil, length_encodeAll, ← hw.size] at hlen
      exact Array.length_toList.symm.trans hlen
  have hpos := hresolves.positions
  refine ⟨⟨hw.wf, fun n hn => hw.base n (hresolves.size ▸ hn), ?_, fun k hk hk' => ?_,
    fun p hp k hk => ?_, fun h => ?_⟩, hresolves, fun h => ?_⟩
  · rw [hpos]
    simpa using hb
  · have hkl : k ≠ l := by
      rintro rfl
      rw [hpos, Function.update_self] at hk'
      cases hk'
    rw [hpos, Function.update_of_ne hkl] at hk'
    rw [hresolves.others k hkl, hw.waits k hk hk']
  · obtain ⟨hown, hk, hforward⟩ := hw.labels p hp k hk
    refine ⟨hown, hresolves.size ▸ hk, fun h => hforward ?_⟩
    by_cases hkl : k = l
    · rw [hkl, hnone]
    · rwa [hpos, Function.update_of_ne hkl] at h
  · rw [hpos] at h
    rcases hpend h with h | h
    · simp [h]
    · exact hresolves.hasPending (hw.pending h)
  · rw [hpos]
    simp only [Bool.or_eq_true] at h
    exact h.imp_right fun h => by simpa using hback h

end

end MethodM

end ClassAssembler
