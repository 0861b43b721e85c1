import ClassAssembler.Proofs.Assembling
import Mathlib

/-!
# Code that is too large

The length of the code of a method is checked when a class is sized, after the jumps have been made
wide.  Sizing always ends, and the only failures that it records are code or a stack that is too
large and a pool without room for the names of attributes (`ClassBody.sizes_measure`).  Making jumps
wide never shortens code, so a class with code that is too large never gives bytes; unless jumps
that are pending cause a failure before, the failure is the one of the code.
-/

namespace ClassAssembler

open List

namespace Pool

/-- What sizing does to a pool: it adds names, and a failure is the one of code that is too large
unless another limit is exceeded, be it the one of the pool. -/
structure Fills (other : Prop) (p q : Pool) : Prop where
  count : p.count ≤ q.count
  failure : q.failure = p.failure ∨ p.failure = none ∧
    ∃ f, q.failure = some f ∧ (f.cause = .codeTooLarge ∨ maxCount < q.count ∨ other)

variable {other : Prop}

theorem Fills.refl (p : Pool) : Fills other p p := ⟨le_rfl, .inl rfl⟩

theorem Fills.trans {p q r : Pool} (h : Fills other p q) (h' : Fills other q r) :
    Fills other p r := by
  refine ⟨h.count.trans h'.count, ?_⟩
  rcases h'.failure with heq | ⟨hnone, f, hf, hcause⟩
  · rw [heq]
    rcases h.failure with heq | ⟨hnone, f, hf, hcause⟩
    · exact .inl heq
    · refine .inr ⟨hnone, f, hf, hcause.imp_right (Or.imp_left fun hlt => ?_)⟩
      exact hlt.trans_le h'.count
  · rcases h.failure with heq | ⟨-, g, hg, -⟩
    · exact .inr ⟨heq ▸ hnone, f, hf, hcause⟩
    · cases hnone.symm.trans hg

theorem fills_recordFailure (p : Pool) (f : Failure)
    (hf : f.cause = .codeTooLarge ∨ maxCount < p.count ∨ other) :
    Fills other p (p.recordFailure f) := by
  unfold recordFailure
  split
  · exact .refl p
  next hnone => exact ⟨le_rfl, .inr ⟨hnone, f, rfl, hf⟩⟩

end Pool

namespace PoolM

/-- A computation ends on every pool and does to it what sizing may do. -/
def Sizes {α : Type} (other : Prop) (x : PoolM α) : Prop :=
  ∀ p, ∃ a q, Ends x p a q ∧ Pool.Fills other p q

variable {α β : Type} {other : Prop}

theorem sizes_pure (a : α) : Sizes other (pure a) :=
  fun p => ⟨a, p, ends_pure.2 ⟨rfl, rfl⟩, .refl p⟩

theorem Sizes.bind {x : PoolM α} {f : α → PoolM β} (hx : Sizes other x)
    (hf : ∀ a, Sizes other (f a)) : Sizes other (x >>= f) := by
  intro p
  obtain ⟨a, q, hends, hfills⟩ := hx p
  obtain ⟨b, r, hends', hfills'⟩ := hf a q
  exact ⟨b, r, ends_bind.2 ⟨a, q, hends, hends'⟩, hfills.trans hfills'⟩

theorem sizes_get : Sizes other (get : PoolM Pool) :=
  fun p => ⟨p, p, ends_pool_get.2 ⟨rfl, rfl⟩, .refl p⟩

theorem sizes_register (c : Constant) : Sizes other (register c) := by
  intro p
  have hcount : p.count ≤ (p.enter c).count := by
    unfold Pool.enter Pool.count
    split
    · simp only [Array.size_push]
      omega
    · simp
  have henter : Pool.Fills other p (p.enter c) := ⟨hcount, .inl rfl⟩
  by_cases hfull : Pool.maxCount < (p.enter c).count
  · refine ⟨p.count, _, ?_, henter.trans ((p.enter c).fills_recordFailure
      ⟨.poolTooLarge, "ConstantPool", []⟩ (.inr (.inl hfull)))⟩
    simp only [register, ends_bind, ends_pool_get, ends_pool_modify]
    refine ⟨_, _, ⟨rfl, rfl⟩, ⟨⟩, _, rfl, _, _, ⟨rfl, rfl⟩, ?_⟩
    show Ends (if Pool.maxCount < (p.enter c).count then _ else _) (p.enter c) _ _
    rw [if_pos hfull]
    exact ends_bind.2 ⟨(), _, ends_fail.2 rfl, ends_pure.2 ⟨rfl, rfl⟩⟩
  · refine ⟨p.count, _, ?_, henter⟩
    simp only [register, ends_bind, ends_pool_get, ends_pool_modify]
    refine ⟨_, _, ⟨rfl, rfl⟩, ⟨⟩, _, rfl, _, _, ⟨rfl, rfl⟩, ?_⟩
    show Ends (if Pool.maxCount < (p.enter c).count then _ else _) (p.enter c) _ _
    rw [if_neg hfull]
    exact ends_pure.2 ⟨rfl, rfl⟩

theorem sizes_utf8 (t : Text) : Sizes other (utf8 t) := by
  unfold utf8 intern index?
  refine (sizes_get.bind fun _ => sizes_pure _).bind fun o => ?_
  cases o with
  | some i => exact sizes_pure i
  | none =>
    refine Sizes.bind (fun p => ?_) fun _ => sizes_register _
    exact ⟨⟨⟩, _, ends_pool_modify.2 rfl, le_rfl, .inl rfl⟩

end PoolM

open PoolM (Sizes sizes_pure sizes_utf8)

variable {other : Prop}

namespace Attribute

theorem sizes_total {xs : List (PoolM Int)} (h : ∀ x ∈ xs, Sizes other x) :
    Sizes other (total xs) := by
  induction xs with
  | nil => exact sizes_pure 0
  | cons x xs ih =>
    obtain ⟨hx, hxs⟩ := forall_mem_cons.1 h
    exact hx.bind fun _ => (ih hxs).bind fun _ => sizes_pure _

theorem sizes_measure {wanted : Bool} {name : String} {x : PoolM Int} (h : Sizes other x) :
    Sizes other (measure wanted name x) := by
  unfold measure
  split
  · exact ((sizes_utf8 _).bind fun _ => sizes_pure _).bind fun _ => h.bind fun _ => sizes_pure _
  · exact sizes_pure 0

theorem sizes_plain {wanted : Bool} {name : String} {n : Int} :
    Sizes other (measure wanted name (pure n)) := sizes_measure (sizes_pure n)

theorem sizes_raw (as : List RawAttribute) : Sizes other (total (as.map measureRaw)) := by
  apply sizes_total
  intro x hx
  obtain ⟨a, -, rfl⟩ := mem_map.1 hx
  exact ((sizes_utf8 _).bind fun _ => sizes_pure _).bind fun _ => sizes_pure _

theorem sizes_annotationLists (store : AnnotationStore) (l : AnnotationLists) :
    Sizes other (measureAnnotationLists store l) := by
  apply sizes_total
  simp only [forall_mem_cons]
  exact ⟨sizes_plain, sizes_plain, sizes_plain, sizes_plain, nofun⟩

theorem sizes_parameters (store : AnnotationStore) (name : String) (hidden : Nat)
    (lists : Option (Array (Array AnnotationId))) :
    Sizes other (measureParameters store name hidden lists) := by
  cases lists with
  | none => exact sizes_pure 0
  | some lists => exact sizes_plain

end Attribute

open Attribute

theorem Field.sizes_measure (f : Field) (major : Int) (store : AnnotationStore) :
    Sizes other (f.measure major store) := by
  refine (sizes_total ?_).bind fun _ => sizes_pure _
  unfold partSizes
  simp only [forall_mem_cons]
  exact ⟨sizes_plain, sizes_plain, sizes_plain, sizes_plain, sizes_annotationLists _ _, sizes_raw _,
    nofun⟩

namespace Method

/-- The stack and the local variables are no more than a class file can say. -/
def FrameFits (m : Method) : Prop := m.maxStack ≤ limit ∧ m.maxLocals ≤ limit

variable {m : Method}

theorem sizes_limit {c : Prop} [Decidable c] (cause : Cause) (args : List Value)
    (h : c → cause = .codeTooLarge ∨ other) :
    Sizes other (if c then PoolM.fail cause "ToByteArray" args else pure ()) := by
  split
  next hc =>
    intro p
    refine ⟨⟨⟩, _, PoolM.ends_fail.2 rfl, p.fills_recordFailure _ ?_⟩
    exact (h hc).imp_right .inr
  next => exact sizes_pure _

theorem sizes_checkLimits (h : ¬ m.FrameFits → other) : Sizes other m.checkLimits := by
  unfold checkLimits
  intro p
  have hcode (_ : limit < m.code.size) : Cause.codeTooLarge = .codeTooLarge ∨ other := .inl rfl
  have hstack (hc : (limit : Int) < m.maxStack) : Cause.frameTooLarge = .codeTooLarge ∨ other :=
    .inr (h fun hfits => absurd hfits.1 (Int.not_le.2 hc))
  have hlocals (hc : (limit : Int) < m.maxLocals) : Cause.frameTooLarge = .codeTooLarge ∨ other :=
    .inr (h fun hfits => absurd hfits.2 (Int.not_le.2 hc))
  obtain ⟨_, p₁, e₁, hfills₁⟩ := sizes_limit .codeTooLarge
    [.string m.name, .string m.desc, .int m.code.size] hcode p
  obtain ⟨_, p₂, e₂, hfills₂⟩ := sizes_limit .frameTooLarge
    [.string m.name, .string m.desc, .string "max_stack", .int m.maxStack] hstack p₁
  obtain ⟨_, p₃, e₃, hfills₃⟩ := sizes_limit .frameTooLarge
    [.string m.name, .string m.desc, .string "max_locals", .int m.maxLocals] hlocals p₂
  exact ⟨⟨⟩, p₃, ends_when.2 ⟨p₁, e₁, ends_when.2 ⟨p₂, e₂, e₃⟩⟩,
    (hfills₁.trans hfills₂).trans hfills₃⟩

theorem sizes_measure (h : ¬ m.FrameFits → other) (major : Int) (store : AnnotationStore) :
    Sizes other (m.measure major store) := by
  have hcode : Sizes other (m.measureCode major) := by
    unfold measureCode
    split
    · exact sizes_pure 0
    · refine (sizes_checkLimits h).bind fun _ => Attribute.sizes_measure ?_
      refine (sizes_total ?_).bind fun _ => sizes_pure _
      unfold tableSizes
      simp only [forall_mem_cons]
      exact ⟨sizes_plain, sizes_plain, sizes_plain, sizes_plain, sizes_raw _, nofun⟩
  have hsignature : Sizes other (Attribute.measure (!m.signature.isEmpty) "Signature" do
      discard <| PoolM.utf8 m.signature
      return 2) :=
    Attribute.sizes_measure (((sizes_utf8 _).bind fun _ => sizes_pure _).bind fun _ => sizes_pure _)
  refine (sizes_total ?_).bind fun _ => sizes_pure _
  unfold partSizes
  simp only [forall_mem_cons]
  exact ⟨hcode, sizes_plain, sizes_plain, sizes_plain, hsignature, sizes_plain, sizes_plain,
    sizes_annotationLists _ _, sizes_parameters _ _ _ _, sizes_parameters _ _ _ _, sizes_raw _,
    nofun⟩

end Method

namespace ClassBody

/-- Some method has a stack or local variables that a class file cannot say. -/
def FrameTooLarge (c : ClassBody) : Prop := ∃ id ∈ c.written, ¬ (c.methodOf id).FrameFits

theorem sizes_measure (c : ClassBody) (s : Session) : Sizes c.FrameTooLarge (c.measure s) := by
  unfold measure
  refine (sizes_total fun x hx => ?_).bind fun _ => (sizes_total fun x hx => ?_).bind fun _ => ?_
  · obtain ⟨f, -, rfl⟩ := mem_map.1 hx
    exact f.sizes_measure _ _
  · obtain ⟨id, hid, rfl⟩ := mem_map.1 hx
    exact Method.sizes_measure (fun h => ⟨id, Array.mem_toList_iff.1 hid, h⟩) _ _
  · refine PoolM.sizes_get.bind fun p => (sizes_total ?_).bind fun _ =>
      PoolM.sizes_get.bind fun _ => sizes_pure _
    unfold partSizes
    simp only [forall_mem_cons]
    exact ⟨sizes_plain, sizes_plain, sizes_plain, sizes_plain, sizes_plain, sizes_plain,
      sizes_plain, sizes_plain, sizes_annotationLists _ _, sizes_raw _, nofun⟩

theorem methodAt_eq {c : ClassBody} {i : Nat} (hi : i < c.written.size) :
    c.methodAt i = c.methodOf c.written[i] := by
  rw [methodAt, Array.getElem?_eq_getElem hi, Option.getD_some, methodOf]

/-- A limit of the class file other than that of the code is exceeded. -/
def ExceedsOther (z : State) : Prop := Pool.maxCount < z.1.1.count ∨ z.2.FrameTooLarge

end ClassBody

namespace ClassM

open ClassBody

variable {x y z : State}

theorem ends_checkTexts_of_failure {p : Pool} {f : Failure} (h : p.failure = some f) :
    Ends checkTexts p () p := by
  refine ends_bind.2 ⟨p, p, ends_pool_get.2 ⟨rfl, rfl⟩, ?_⟩
  split
  · refine ends_pool_modify.2 ?_
    rw [Pool.recordFailure, h]
  · exact ends_pure.2 ⟨rfl, rfl⟩

theorem exists_ends_toBytes (hfail : x.1.1.failure = none) (hwiden : Ends widen x () y)
    (hy : y.2.Prepared y.1.1) (hfail' : y.1.1.failure = none) {i : Nat} (hi : i < y.2.written.size)
    (hlarge : Method.limit < (y.2.methodAt i).code.size) :
    ∃ f z, Ends toBytes x (.error f) z ∧ (f.cause = .codeTooLarge ∨ ExceedsOther z) := by
  obtain ⟨n, q, hmeasure, hfills⟩ := y.2.sizes_measure y.1.2 y.1.1
  -- sizing cannot have ended without a failure
  have hfailed : q.failure ≠ none := by
    intro hq
    have hle := hy.ready.size_le hmeasure hq _ (Array.getElem_mem hi)
    rw [← methodAt_eq hi] at hle
    omega
  obtain ⟨f, hf, hcause⟩ : ∃ f, q.failure = some f ∧
      (f.cause = .codeTooLarge ∨ Pool.maxCount < q.count ∨ y.2.FrameTooLarge) := by
    rcases hfills.failure with heq | ⟨-, hf⟩
    · exact absurd (heq.trans hfail') hfailed
    · exact hf
  let z : State := ((q, y.1.2), y.2)
  have hsession : Ends (getThe Session : ClassM Session) y y.1.2 y :=
    ends_getThe_lift.2 ⟨ends_getThe.2 ⟨rfl, rfl⟩, rfl⟩
  refine ⟨f, z, ?_, hcause⟩
  refine (ends_unfailed fun _ => rfl).2 (.inr ⟨hfail, ends_bind.2 ⟨_, y, hwiden, ?_⟩⟩)
  refine (ends_unfailed fun _ => rfl).2 (.inr ⟨hfail', ?_⟩)
  refine ends_bind.2 ⟨_, y, ends_get.2 ⟨rfl, rfl⟩, ends_bind.2 ⟨_, y, hsession, ?_⟩⟩
  refine ends_bind.2 ⟨n, z, ends_pool.2 ⟨hmeasure, rfl⟩, ?_⟩
  refine ends_bind.2 ⟨(), z, ends_pool.2 ⟨ends_checkTexts_of_failure hf, rfl⟩, ?_⟩
  exact (ends_unfailed fun _ => rfl).2 (.inl ⟨f, hf, rfl, rfl⟩)

end ClassM

namespace CheckedClass

open ClassBody ClassM

variable {c : CheckedClass} {compute : Compute} {options : Options} {source : ClassSource}
  {x : State}

/-- A class with code that is too large never gives bytes.  Its failure is the one of the code
unless another limit is exceeded or making pending jumps wide fails, as it can where the distance of
a pending jump does not fit its sixteen bits; without pending jumps it always is. -/
theorem tooLarge_of_takenBy (hcheck : source.check = .ok c) (hfits : c.Fits)
    (htaken : c.TakenBy (Assembler.create compute options) x) (hfail : x.1.1.failure = none)
    {i : Nat} (hi : i < x.2.written.size) (hlarge : Method.limit < (x.2.methodAt i).code.size) :
    (∀ r z, Ends toBytes x r z → ∃ f, r = .error f ∧ (f.cause = .codeTooLarge ∨ ExceedsOther z ∨
      ∃ y, Ends widen x () y ∧ y.1.1.failure = some f)) ∧
    ((∀ j < x.2.written.size, (x.2.methodAt j).hasPending = false) →
      ∃ f z, Ends toBytes x (.error f) z ∧ (f.cause = .codeTooLarge ∨ ExceedsOther z)) := by
  have hregular := source.regular_of_check hcheck hfits
  have hprepared := prepared_takenBy hregular htaken
  have hcomplete := complete_takenBy hregular hfail htaken
  -- code does not get shorter
  have hstill {y : State} (hwiden : Ends widen x () y) (hfail' : y.1.1.failure = none) :
      ∃ f z, Ends toBytes x (.error f) z ∧ (f.cause = .codeTooLarge ∨ ExceedsOther z) := by
    obtain ⟨-, hwidened, -⟩ := widened_widen hcomplete hfail' hwiden
    have hlarge' : Method.limit < (y.2.methodAt i).code.size := by
      by_contra hsmall
      obtain ⟨hsmall', -⟩ := (hwidened.evolves i hi).moved (Nat.le_of_not_lt hsmall)
      exact absurd hlarge (Nat.not_lt.2 hsmall')
    exact exists_ends_toBytes hfail hwiden (prepared_widenAll hprepared hwiden) hfail'
      (hwidened.count ▸ hi) hlarge'
  constructor
  · intro r z e
    have e' := e
    unfold toBytes at e'
    obtain ⟨f, hf, -, -⟩ | ⟨-, e'⟩ := (ends_unfailed fun _ => rfl).1 e'
    · cases hfail.symm.trans hf
    obtain ⟨_, y, hwiden, e'⟩ := ends_bind.1 e'
    obtain ⟨f, hf, rfl, rfl⟩ | ⟨hfail', -⟩ := (ends_unfailed fun _ => rfl).1 e'
    · exact ⟨f, rfl, .inr (.inr ⟨y, hwiden, hf⟩)⟩
    · obtain ⟨f, z', e'', hcause⟩ := hstill hwiden hfail'
      obtain ⟨rfl, rfl⟩ := e.unique e''
      exact ⟨f, rfl, hcause.imp_right .inl⟩
  · intro hpending
    have hsettled : x.2.Settled := by
      intro j hj
      obtain ⟨id, hid, -, hm⟩ := hcomplete.inRange.getElem? hj
      rw [hid, Option.getD_some]
      exact ⟨hm, hpending j hj⟩
    exact hstill (ends_widen_of_settled hsettled hfail) hfail

end CheckedClass

namespace Listing

def nops (n : Nat) : Text := (replicate n (Text.ofString "nop\n")).flatten

def nopLines (n : Nat) : List (Except Text (List Text)) :=
  replicate n (.ok ["nop"]) ++ [.ok []]

theorem tokens_nops (n : Nat) : ((nops n).split 10).map tokens = nopLines n := by
  have hsplit (acc : Array Text) : (Text.splitFrom 10 (nops n) [] acc).toList =
      acc.toList ++ (replicate n (Text.ofString "nop") ++ [[]]) := by
    induction n generalizing acc with
    | zero => simp [nops, Text.splitFrom]
    | succ n ih =>
      have hstep : Text.splitFrom 10 (nops (n + 1)) [] acc =
          Text.splitFrom 10 (nops n) [] (acc.push "nop") := rfl
      rw [hstep, ih, Array.toList_push, replicate_succ]
      simp
  rw [Text.split, hsplit]
  have hword : tokens (Text.ofString "nop") = .ok ["nop"] := by decide +kernel
  have hnone : tokens [] = .ok [] := by decide +kernel
  simp [nopLines, hword, hnone]

theorem collect_nopLines (n k : Nat) (r : Reading) :
    ∃ line, ((collectLabels (nopLines n) k).run r).2 = { r with line } := by
  induction n generalizing k r with
  | zero => exact ⟨k, rfl⟩
  | succ n ih =>
    obtain ⟨line, hline⟩ := ih (k + 1) { r with line := k }
    exact ⟨line, hline⟩

theorem event?_nop (r : Reading) :
    (event? (.ok ["nop"])).run r = (some (.instruction (.plain 0)), r) := by
  rw [event?_of_lookup .nop (by decide +kernel) (by decide +kernel)]
  rfl

theorem read_nopLines (n k : Nat) (events : Array (CodeEvent Text)) (r : Reading) :
    ∃ line, (readEvents (nopLines n) k events).run r =
      (events ++ (replicate n (.instruction (.plain 0))).toArray, { r with line }) := by
  induction n generalizing k r events with
  | zero => exact ⟨k, by simp [nopLines]; rfl⟩
  | succ n ih =>
    obtain ⟨line, hline⟩ := ih (k + 1) (events.push (.instruction (.plain 0))) { r with line := k }
    refine ⟨line, ?_⟩
    have hcons : nopLines (n + 1) = .ok ["nop"] :: nopLines n := rfl
    have hevents : events.push (.instruction (.plain 0)) ++
        (replicate n (.instruction (.plain 0))).toArray =
        events ++ (replicate (n + 1) (CodeEvent.instruction (.plain 0))).toArray := by
      apply Array.toList_inj.1
      simp [replicate_succ]
    rw [hcons, run_readEvents_cons, event?_nop, ← hevents]
    exact hline

theorem read_nops (method : Text) (n : Nat) :
    read method (nops n) = ({ events := replicate n (.instruction (.plain 0)) }, []) := by
  obtain ⟨line, hcollect⟩ := collect_nopLines n 1 { method }
  obtain ⟨line', hread⟩ := read_nopLines n 1 #[] { method, line }
  have hread' := read_of_run (tokens_nops n) ((congrArg _ hcollect).trans hread)
  simpa using hread'

end Listing

namespace MethodM

variable {p : Pool} {t : Session} {m : Method}

theorem ends_take_nop (hfail : p.failure = none) (hended : m.isEnded = false)
    (hcode : m.hasCode = true) (hmaxs : m.hasMaxs = false) (hblock : m.currentBlock = none) :
    Ends (take (.instruction (.plain 0))) ((p, t), m) ()
      ((p, t), { m with code := m.code.putByte 0 }) := by
  cases p
  cases m
  dsimp only at hfail hended hcode hmaxs hblock
  subst hfail hended hcode hmaxs hblock
  rfl

theorem ends_maxs (stack locals : Int) (hfail : p.failure = none) (hended : m.isEnded = false)
    (hcode : m.hasCode = true) (hmaxs : m.hasMaxs = false) (hforward : m.forward = #[])
    (hhandlers : m.handlers = #[]) (hcompute : m.compute = .nothing) :
    Ends (take (.maxs stack locals)) ((p, t), m) ()
      ((p, t), { m with hasMaxs := true, maxStack := stack, maxLocals := locals }) := by
  cases p
  cases m
  dsimp only at hfail hended hcode hmaxs hforward hhandlers hcompute
  subst hfail hended hcode hmaxs hforward hhandlers hcompute
  rfl

def withNops (m : Method) (n : Nat) : Method := { m with code := (·.putByte 0)^[n] m.code }

end MethodM

namespace ClassM

open ClassBody MethodM

variable {x y : State} {m : Method}

theorem ends_onMethod_run {α : Type} {act : MethodM α} {a : α} {id : MethodId} {s : Pool × Session}
    {m' : Method} (hm : x.2.methods[id]? = some m) (e : Ends act (x.1, m) a (s, m')) :
    Ends (onMethod id act) x a (s, x.2.withMethod id m') := by
  refine ends_bind.2 ⟨_, _, ends_get.2 ⟨rfl, rfl⟩, ?_⟩
  rw [hm]
  let c : ClassBody := x.2.withMethod id default
  refine ends_bind.2 ⟨⟨⟩, (x.1, c), ends_modify.2 rfl, ends_bind.2 ⟨(a, m'), (s, c),
    ends_lift.2 ⟨ends_run.2 e, rfl⟩, ends_bind.2 ⟨⟨⟩, (s, c.withMethod id m'), ends_modify.2 rfl,
      ends_pure.2 ⟨rfl, ?_⟩⟩⟩⟩
  rw [withMethod_withMethod]

/-- A method that takes plain instructions. -/
structure Within (x : State) (m : Method) : Prop where
  method : x.2.methods[0]? = some m
  failure : x.1.1.failure = none
  isEnded : m.isEnded = false
  hasCode : m.hasCode = true
  hasMaxs : m.hasMaxs = false
  block : m.currentBlock = none

theorem ends_takeEvents_nops (n : Nat) {es : List (ClassEvent LabelId)} (h : Within x m)
    (e : Ends (takeEvents es (some 0)) (x.1, x.2.withMethod 0 (withNops m n)) () y) :
    Ends (takeEvents (replicate n (ClassEvent.code (.instruction (.plain 0))) ++ es) (some 0))
      x () y := by
  induction n generalizing x m with
  | zero =>
    have hsame : x.2.withMethod 0 (withNops m 0) = x.2 := withMethod_self h.method
    rw [hsame] at e
    exact e
  | succ n ih =>
    let m' : Method := { m with code := m.code.putByte 0 }
    have hstep :
        Ends (onMethod 0 (take (.instruction (.plain 0)))) x () (x.1, x.2.withMethod 0 m') :=
      ends_onMethod_run h.method
        (ends_take_nop h.failure h.isEnded h.hasCode h.hasMaxs h.block)
    refine ends_bind.2 ⟨some 0, _, ends_bind.2 ⟨(), _, hstep, ends_pure.2 ⟨rfl, rfl⟩⟩, ?_⟩
    refine ih ⟨getElem?_withMethod h.method, h.failure, h.isEnded, h.hasCode, h.hasMaxs, h.block⟩ ?_
    rw [withMethod_withMethod]
    exact e

theorem ends_takeEvents_closing (h : Within x m) (hforward : m.forward = #[])
    (hhandlers : m.handlers = #[]) (hcompute : m.compute = .nothing)
    (hended : x.2.isEnded = false) :
    ∃ y, Ends (takeEvents [.code (.maxs 0 0), .finishMethod, .finish] (some 0)) x () y ∧
      y.1 = x.1 ∧ y.2.written = x.2.written ∧ y.2.methods[0]? =
        some { m with hasMaxs := true, maxStack := 0, maxLocals := 0, isEnded := true } := by
  let m₁ : Method := { m with hasMaxs := true, maxStack := 0, maxLocals := 0 }
  let m₂ : Method := { m₁ with isEnded := true }
  have hmaxs : Ends (onMethod 0 (take (.maxs 0 0))) x () (x.1, x.2.withMethod 0 m₁) :=
    ends_onMethod_run h.method
      (ends_maxs 0 0 h.failure h.isEnded h.hasCode h.hasMaxs hforward hhandlers hcompute)
  have hfinish : Ends (onMethod 0 MethodM.finish) (x.1, x.2.withMethod 0 m₁) ()
      (x.1, (x.2.withMethod 0 m₁).withMethod 0 m₂) := by
    refine ends_onMethod_run (getElem?_withMethod h.method) ?_
    obtain ⟨⟨p, t⟩, c⟩ := x
    have hfail := h.failure
    have hopen := h.isEnded
    cases p
    cases m
    dsimp only at hfail hopen
    subst hfail hopen
    rfl
  have hlast : Ends (ClassM.finish .body) (x.1, x.2.withMethod 0 m₂) ()
      (x.1, { x.2.withMethod 0 m₂ with isEnded := true }) := by
    obtain ⟨⟨p, t⟩, c⟩ := x
    have hfail := h.failure
    cases p
    cases c
    dsimp only at hfail hended
    subst hfail hended
    rfl
  rw [withMethod_withMethod] at hfinish
  refine ⟨(x.1, { x.2.withMethod 0 m₂ with isEnded := true }), ?_, rfl, rfl,
    getElem?_withMethod h.method⟩
  exact ends_bind.2 ⟨some 0, _, ends_bind.2 ⟨(), _, hmaxs, ends_pure.2 ⟨rfl, rfl⟩⟩,
    ends_bind.2 ⟨none, _, ends_bind.2 ⟨(), _, hfinish, ends_pure.2 ⟨rfl, rfl⟩⟩,
      ends_bind.2 ⟨none, _, ends_bind.2 ⟨(), _, hlast, ends_pure.2 ⟨rfl, rfl⟩⟩,
        ends_pure.2 ⟨rfl, rfl⟩⟩⟩⟩

end ClassM

namespace CheckedClass

open ClassBody ClassM

def idle (n : Nat) : CheckedClass :=
  ofListing { events := replicate n (.instruction (.plain 0)) }

def idleHeader (L : Type) : ClassEvent L := .header 52 0 "T" "" "O" []

def idleMethod (L : Type) : ClassEvent L := .method 0 "m" "()V" "" []

def idleEvents (L : Type) (n : Nat) : List (ClassEvent L) :=
  idleHeader L :: idleMethod L :: .beginCode ::
    (replicate n (ClassEvent.code (.instruction (.plain 0))) ++
      [ClassEvent.code (.maxs 0 0), .finishMethod, .finish])

theorem events_idle (n : Nat) : (idle n).events = idleEvents ListingLabel n := by
  simp [idle, idleEvents, idleHeader, idleMethod, ofListing, events, CheckedMethod.events,
    CheckedMethod.codeEvents, CodeEvent.mapTargets, Instruction.mapTargets]
  rfl

theorem size_numbering_idle (n : Nat) : (idle n).numbering.size = 0 := by
  have hfold (es : List (ClassEvent ListingLabel)) (hes : ∀ e ∈ es, e.targets = [])
      (k : Numbering ListingLabel) :
      es.foldl (fun k e => e.targets.foldl Numbering.note k) k = k := by
    induction es with
    | nil => rfl
    | cons e es ih =>
      obtain ⟨he, hes⟩ := forall_mem_cons.1 hes
      rw [foldl_cons, he]
      exact ih hes
  have hevents : ∀ e ∈ (idle n).events, e.targets = [] := by
    rw [events_idle]
    simp only [idleEvents, mem_append, mem_cons, not_mem_nil, or_false,
      mem_replicate]
    rintro e (rfl | rfl | rfl | ⟨-, rfl⟩ | rfl | rfl | rfl) <;> rfl
  rw [numbering, Numbering.ofEvents, hfold _ hevents]
  exact Std.HashMap.size_empty

theorem number_idle (n : Nat) : ClassEvent.number (idle n).events = idleEvents LabelId n := by
  simp [ClassEvent.number, events_idle, idleEvents, idleHeader, idleMethod, ClassEvent.mapTargets,
    CodeEvent.mapTargets, Instruction.mapTargets]

theorem size_putByte_iterate (n : Nat) (b : Buffer) : ((·.putByte 0)^[n] b).size = b.size + n := by
  induction n with
  | zero => rfl
  | succ n ih =>
    rw [Function.iterate_succ_apply', ← Buffer.length_toList, Buffer.toList_putByte,
      length_append, Buffer.length_toList, ih]
    rfl

set_option maxRecDepth 20000 in
theorem run_idle (n : Nat) : ∃ x, (idle n).TakenBy (Assembler.create .nothing {}) x ∧
    x.1.1.failure = none ∧ x.2.written.size = 1 ∧ (x.2.methodAt 0).code.size = n ∧
    (x.2.methodAt 0).hasPending = false := by
  have hrun : (Stateful.outcome (do
        newLabels 0
        let m ← takeEvent none (idleHeader LabelId)
        let m ← takeEvent m (idleMethod LabelId)
        takeEvent m .beginCode : ClassM (Option MethodId))
      (((Assembler.create .nothing {}).pool, (Assembler.create .nothing {}).session),
        (Assembler.create .nothing {}).body)).map (fun r =>
          (r.1, r.2.1.1.failure, r.2.2.written, r.2.2.isEnded,
            (r.2.2.methods[0]?).map fun (m : Method) =>
              (m.isEnded, m.hasCode, m.hasMaxs, m.currentBlock, m.forward, m.handlers, m.compute,
                m.code.size, m.hasPending))) =
      .ok (some 0, none, #[0], false,
        some (false, true, false, none, #[], #[], Compute.nothing, 0, false)) := by
    cbv
  obtain ⟨_, w, hends, hw⟩ := exists_ends_of_map hrun
  simp only [Prod.mk.injEq, Option.map_eq_some_iff] at hw
  obtain ⟨rfl, hfail, hwritten, hended, m, hm, hended', hcode, hmaxs, hblock, hforward, hhandlers,
    hcompute, hsize, hpending⟩ := hw
  have hwithin : Within w m := ⟨hm, hfail, hended', hcode, hmaxs, hblock⟩
  obtain ⟨_, w₀, hlabels, e⟩ := hends.bind
  obtain ⟨o₁, w₁, h₁, e⟩ := e.bind
  obtain ⟨o₂, w₂, h₂, h₃⟩ := e.bind
  let m' := MethodM.withNops m n
  have hwithin' : Within (w.1, w.2.withMethod 0 m') m' :=
    ⟨getElem?_withMethod hwithin.method, hfail, hended', hcode, hmaxs, hblock⟩
  obtain ⟨x, hclosing, hstate, hwritten', hmethod⟩ :=
    ends_takeEvents_closing hwithin' hforward hhandlers hcompute hended
  have hrest := ends_takeEvents_nops n hwithin hclosing
  have hat : x.2.methodAt 0 =
      { m' with hasMaxs := true, maxStack := 0, maxLocals := 0, isEnded := true } := by
    have hzero : x.2.written[0]? = some 0 := by
      rw [hwritten', show (w.2.withMethod 0 m').written = #[0] from hwritten]
      rfl
    rw [methodAt, hzero, Option.getD_some, hmethod, Option.getD_some]
  refine ⟨x, ⟨w₀, ?_, ?_⟩, ?_, ?_, ?_, ?_⟩
  · rw [size_numbering_idle]
    exact hlabels
  · rw [number_idle]
    exact ends_bind.2 ⟨o₁, w₁, h₁, ends_bind.2 ⟨o₂, w₂, h₂, ends_bind.2 ⟨_, w, h₃, hrest⟩⟩⟩
  · rw [hstate]
    exact hfail
  · rw [hwritten']
    exact congrArg Array.size hwritten
  · rw [hat]
    have hn := size_putByte_iterate n m.code
    rw [hsize, Nat.zero_add] at hn
    exact hn
  · rw [hat]
    exact hpending

theorem tooLarge_idle : ∃ c x, (ClassSource.ofCode (Listing.nops 65536)).check = .ok c ∧
    c.TakenBy (Assembler.create .nothing {}) x ∧ Method.limit < (x.2.methodAt 0).code.size ∧
    ∃ f z, Ends toBytes x (.error f) z ∧ (f.cause = .codeTooLarge ∨ ExceedsOther z) := by
  have hcode : Listing.nops 65536 ≠ [] := cons_ne_nil _ _
  have hcheck := ClassSource.check_ofCode hcode (Listing.read_nops "m()V" 65536)
  obtain ⟨x, htaken, hfail, hwritten, hsize, hpending⟩ := run_idle 65536
  have hfits : (idle 65536).Fits := by
    intro m hm l hl e he
    obtain rfl := mem_singleton.1 hm
    obtain rfl := Option.some.inj hl
    obtain rfl := eq_of_mem_replicate he
    trivial
  have hlarge : Method.limit < (x.2.methodAt 0).code.size := by
    rw [hsize]
    decide
  obtain ⟨-, hends⟩ := tooLarge_of_takenBy hcheck hfits htaken hfail (hwritten ▸ Nat.one_pos) hlarge
  refine ⟨_, x, hcheck, htaken, hlarge, hends fun j hj => ?_⟩
  obtain rfl : j = 0 := by omega
  exact hpending

end CheckedClass

end ClassAssembler
