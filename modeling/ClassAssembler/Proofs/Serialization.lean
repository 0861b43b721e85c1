import ClassAssembler.Proofs.Passes
import ClassAssembler.Proofs.Sizes

/-!
# Turning a class into bytes

A class that is prepared for it is turned into bytes of the size that was worked out, or a failure
is recorded; the size itself is never the failure.  Afterwards there is nothing left to do: turning
the class into bytes once more gives the same result and changes nothing.
-/

namespace ClassAssembler

/-! ## Classes that are prepared -/

namespace Method

/-- The number of arguments of a method; zero if its descriptor cannot be read. -/
def argumentCount (m : Method) : Nat :=
  match JavaType.argumentTypes m.desc with
  | .ok ts => ts.length
  | .error _ => 0

/-- A method has a list of annotations for each argument, if it has any, and hides no more
parameters than it has arguments.  Its named parameters and its frames are those that
are counted. -/
structure Tallied (p : Pool) (m : Method) : Prop where
  hidden : m.hiddenParameters ≤ m.argumentCount
  visible : ∀ ls ∈ m.visibleParameters, ls.size = m.argumentCount
  invisible : ∀ ls ∈ m.invisibleParameters, ls.size = m.argumentCount
  parameters : (m.parameters.getD {}).toList.length = 4 * m.parameterCount
  mapped : m.Mapped p

variable {p q : Pool} {m m' : Method}

theorem Tallied.hidesWithin (h : m.Tallied p) : m.HidesWithin :=
  ⟨fun ls hls => by rw [h.visible ls hls]; exact h.hidden,
    fun ls hls => by rw [h.invisible ls hls]; exact h.hidden⟩

theorem Tallied.congr (h : m.Tallied p) (hheader : m'.header = m.header) (hmapped : m'.Mapped q) :
    m'.Tallied q := by
  have hkeep {β : Type} (g : Method → β) (hg : ∀ m, g m.header = g m) : g m' = g m := by
    rw [← hg, hheader, hg]
  have hcount := hkeep argumentCount fun _ => rfl
  constructor
  · rw [hkeep hiddenParameters fun _ => rfl, hcount]
    exact h.hidden
  · rw [hkeep visibleParameters fun _ => rfl, hcount]
    exact h.visible
  · rw [hkeep invisibleParameters fun _ => rfl, hcount]
    exact h.invisible
  · rw [hkeep Method.parameters fun _ => rfl, hkeep parameterCount fun _ => rfl]
    exact h.parameters
  · exact hmapped

theorem Tallied.mono (h : m.Tallied p) (hpq : p.Onward q) : m.Tallied q :=
  h.congr rfl (h.mapped.congr hpq rfl)

end Method

namespace ClassBody

/-- The inner classes of a class are those that are counted, and each of them has an index. -/
structure Listed (c : ClassBody) (p : Pool) : Prop where
  size : (c.inner.getD {}).toList.length = 8 * c.innerCount
  count : c.innerCount = c.innerNames.size
  known : ∀ name ∈ c.innerNames, p.Knows (.classRef name)

def nest (c : ClassBody) : Option Buffer × Nat × Std.HashSet Text :=
  (c.inner, c.innerCount, c.innerNames)

/-- What is known of a class at any time before it is turned into bytes. -/
structure Prepared (c : ClassBody) (p : Pool) : Prop where
  signatures : ∀ f ∈ c.fields, f.signature ≠ [] → p.Knows (.utf8 f.signature)
  methods : ∀ id ∈ c.written, ∃ m, c.methods[id]? = some m ∧ m.Tallied p
  inner : c.Listed p

variable {c c' : ClassBody} {p q : Pool} {x y z : State}

theorem Listed.congr (h : c.Listed p) (hpq : p.Onward q) (hnest : c'.nest = c.nest) :
    c'.Listed q := by
  obtain ⟨hinner, hnest⟩ := Prod.mk.inj hnest
  obtain ⟨hcount, hnames⟩ := Prod.mk.inj hnest
  constructor
  · rw [hinner, hcount]
    exact h.size
  · rw [hcount, hnames]
    exact h.count
  · rw [hnames]
    exact fun name hname => hpq.known _ (h.known name hname)

theorem Prepared.mono (h : c.Prepared p) (hpq : p.Onward q) : c.Prepared q := by
  refine ⟨fun f hf hne => hpq.known _ (h.signatures f hf hne), fun id hid => ?_,
    h.inner.congr hpq rfl⟩
  obtain ⟨m, hm, htallied⟩ := h.methods id hid
  exact ⟨m, hm, htallied.mono hpq⟩

theorem Prepared.ready (h : c.Prepared p) : c.Ready p := by
  refine ⟨h.signatures, fun id hid => ?_⟩
  obtain ⟨m, hm, htallied⟩ := h.methods id hid
  rw [methodOf, hm, Option.getD_some]
  exact htallied.hidesWithin

theorem getElem?_push_of_some {ms : Array Method} {id : MethodId} {m' : Method}
    (h : ms[id]? = some m') (m : Method) : (ms.push m)[id]? = some m' := by
  have hlt := (Array.getElem?_eq_some_iff.1 h).1
  rw [Array.getElem?_push_lt hlt, ← Array.getElem?_eq_getElem hlt, h]

theorem Prepared.replaced {i : Nat} {m : Method} {t : Pool × Session} (h : y.2.Prepared y.1.1)
    (e : Ends (y.2.methodAt i).widened y.1 m t) : (y.2.replaced i m).Prepared t.1 := by
  obtain ⟨hgrows, -, hheader, hmapped, -⟩ := Method.steady_widened e
  have hother {id : MethodId} (hid : id ∈ y.2.written) :
      ∃ m', (y.2.replaced i m).methods[id]? = some m' ∧ m'.Tallied t.1 := by
    obtain ⟨m', hm', htallied⟩ := h.methods id hid
    exact ⟨m', getElem?_push_of_some hm' m, htallied.mono hgrows.onward⟩
  refine ⟨fun f hf hne => hgrows.onward.known _ (h.signatures f hf hne), fun id hid => ?_,
    h.inner.congr hgrows.onward rfl⟩
  by_cases hi : i < y.2.written.size
  · rcases Array.mem_or_eq_of_mem_setIfInBounds hid with hid | rfl
    · exact hother hid
    · obtain ⟨m', hm', htallied⟩ := h.methods _ (Array.getElem_mem hi)
      have hat : y.2.methodAt i = m' := by
        rw [methodAt, Array.getElem?_eq_getElem hi, Option.getD_some, hm', Option.getD_some]
      exact ⟨m, Array.getElem?_push_size, htallied.congr (hat ▸ hheader) hmapped⟩
  · have hsame : (y.2.replaced i m).written = y.2.written :=
      Array.setIfInBounds_eq_of_size_le (Nat.le_of_not_lt hi)
    rw [hsame] at hid
    exact hother hid

end ClassBody

namespace ClassM

open ClassBody

variable {x y z : ClassBody.State}

theorem prepared_widenAll {fuel pass : Nat} (h : y.2.Prepared y.1.1)
    (e : Ends (widenAll fuel pass) y () z) : z.2.Prepared z.1.1 :=
  preserved_widenAll (P := fun x => x.2.Prepared x.1.1) (fun hgrows hsame _ hy => hsame ▸
    hy.mono hgrows.onward) (fun hm hy => hy.replaced hm) h e

/-! ## Bytes -/

theorem ends_pool {α : Type} {act : PoolM α} {a : α} {x y : ClassBody.State} :
    Ends (liftM act : ClassM α) x a y ↔ Ends act x.1.1 a y.1.1 ∧ y = ((y.1.1, x.1.2), x.2) := by
  obtain ⟨⟨p, s⟩, c⟩ := x
  obtain ⟨⟨q, s'⟩, c'⟩ := y
  simp only [ends_lift, ends_liftSelf, Prod.mk.injEq, true_and]
  constructor
  · rintro ⟨⟨h, rfl⟩, rfl⟩
    exact ⟨h, rfl, rfl⟩
  · rintro ⟨h, rfl, rfl⟩
    exact ⟨⟨h, rfl⟩, rfl⟩

theorem ends_unfailed {g : Option Failure → ClassM (Except Failure Buffer)}
    {r : Except Failure Buffer} (hg : ∀ f, g (some f) = return .error f) :
    Ends ((liftM failure? : ClassM _) >>= g) x r z ↔
      (∃ f, x.1.1.failure = some f ∧ r = .error f ∧ x = z) ∨
        x.1.1.failure = none ∧ Ends (g none) x r z := by
  have hread {o : Option Failure} {y : State} : Ends (liftM failure? : ClassM _) x o y ↔
      x.1.1.failure = o ∧ x = y := by
    simp only [ends_pool, failure?, ends_bind, ends_pool_get, ends_pure]
    constructor
    · rintro ⟨⟨_, _, ⟨rfl, rfl⟩, ho, hp⟩, hy⟩
      exact ⟨ho, by rw [hy, ← hp]⟩
    · rintro ⟨ho, rfl⟩
      exact ⟨⟨_, _, ⟨rfl, rfl⟩, ho, rfl⟩, rfl⟩
  simp only [ends_bind, hread]
  constructor
  · rintro ⟨o, _, ⟨ho, rfl⟩, e⟩
    cases o with
    | some f =>
      rw [hg, ends_pure] at e
      exact .inl ⟨f, ho, e.1.symm, e.2⟩
    | none => exact .inr ⟨ho, e⟩
  · rintro (⟨f, ho, rfl, rfl⟩ | ⟨ho, e⟩)
    · refine ⟨_, _, ⟨ho, rfl⟩, ?_⟩
      rw [hg]
      exact ends_pure.2 ⟨rfl, rfl⟩
    · exact ⟨_, _, ⟨ho, rfl⟩, e⟩

theorem ends_checkTexts {p q : Pool} {u : Unit} (e : Ends checkTexts p u q)
    (hq : q.failure = none) : q = p ∧ q.bytes.tooLong = none := by
  obtain ⟨_, _, h, e⟩ := e.bind
  obtain ⟨rfl, rfl⟩ := ends_pool_get.1 h
  split at e
  · obtain rfl := ends_pool_modify.1 e
    exact absurd hq (Pool.recordFailure_ne_none p _)
  next hnone =>
    obtain ⟨-, rfl⟩ := e.pure
    refine ⟨rfl, ?_⟩
    cases hlong : p.bytes.tooLong with
    | none => rfl
    | some n =>
      obtain ⟨f, hf⟩ := Option.isSome_iff_exists.1 (by simp [Buffer.failure?, hlong] :
        p.bytes.failure?.isSome)
      exact (hnone f hf).elim

theorem ends_checkTexts_of_none {p : Pool} (h : p.bytes.tooLong = none) :
    Ends checkTexts p () p := by
  have hnone : p.bytes.failure? = none := by simp [Buffer.failure?, h]
  refine ends_bind.2 ⟨_, _, ends_pool_get.2 ⟨rfl, rfl⟩, ?_⟩
  rw [hnone]
  exact ends_pure.2 ⟨rfl, rfl⟩

instance grows_checkTexts : Keeps Pool.Grows checkTexts := by
  refine keeps_then fun p => ?_
  split
  next f hf =>
    refine ⟨fun p a q e => ?_⟩
    obtain rfl := ends_pool_modify.1 e
    obtain ⟨n, -, rfl⟩ := Option.map_eq_some_iff.1 hf
    exact (Pool.adds_recordFailure p _).grows
  next => infer_instance

theorem ends_writeOut {body : ClassBody} {session : Session} {n : Int} {file : ClassFile}
    (hfile : Ends (body.toClassFile session) x.1.1 file x.1.1)
    (hsize : ((file.write n).size : Int) = n) (hfail : x.1.1.failure = none)
    (hlong : x.1.1.bytes.tooLong = none) :
    Ends (writeOut body session n) x (.ok (file.write n)) x := by
  refine ends_bind.2 ⟨_, _, ends_pool.2 ⟨hfile, rfl⟩, ends_bind.2 ⟨_, _, ends_pool.2
    ⟨ends_checkTexts_of_none hlong, rfl⟩, (ends_unfailed fun _ => rfl).2 (.inr ⟨hfail, ?_⟩)⟩⟩
  dsimp only
  rw [if_neg (not_not.2 hsize)]
  exact (ends_unfailed fun _ => rfl).2 (.inr ⟨hfail, ends_pure.2 ⟨rfl, rfl⟩⟩)

/-- A class has been turned into bytes: it was written again where needed and sized, and then it was
written without a change to its pool. -/
structure Serialized (x : State) (out : Buffer) (y z : State) (n : Int) (file : ClassFile) :
    Prop where
  widened : Ends widen x () y
  measured : Ends (y.2.measure y.1.2) y.1.1 n z.1.1
  rest : z = ((z.1.1, y.1.2), y.2)
  unfailed : z.1.1.failure = none
  tooLong : z.1.1.bytes.tooLong = none
  measures : Ends (z.2.measure z.1.2) z.1.1 n z.1.1
  made : Ends (z.2.toClassFile z.1.2) z.1.1 file z.1.1
  written : out = file.write n
  size : (out.size : Int) = n

/-- Serializing fails with the cause that was recorded, or it gives bytes. -/
theorem ends_toBytes {r : Except Failure Buffer} (hx : x.2.Prepared x.1.1)
    (e : Ends toBytes x r z) :
    x.1.1.Grows z.1.1 ∧ z.2.Prepared z.1.1 ∧ ((∃ f, r = .error f ∧ z.1.1.failure = some f) ∨
      ∃ out y n file, r = .ok out ∧ Serialized x out y z n file) := by
  unfold toBytes at e
  obtain ⟨f, hf, rfl, rfl⟩ | ⟨-, e⟩ := (ends_unfailed fun _ => rfl).1 e
  · exact ⟨Steps.refl _, hx, .inl ⟨f, rfl, hf⟩⟩
  obtain ⟨_, y, hwiden, e⟩ := e.bind
  have hy := prepared_widenAll hx hwiden
  have hwidened := grows_widenAll hwiden
  obtain ⟨f, hf, rfl, rfl⟩ | ⟨-, e⟩ := (ends_unfailed fun _ => rfl).1 e
  · exact ⟨hwidened, hy, .inl ⟨f, rfl, hf⟩⟩
  replace e := ends_get_bind.1 e
  obtain ⟨session, y₁, h, e⟩ := e.bind
  obtain ⟨rfl, rfl⟩ : y.1.2 = session ∧ y = y₁ := by
    obtain ⟨h, hc⟩ := ends_getThe_lift.1 h
    obtain ⟨hs, h⟩ := ends_getThe.1 h
    exact ⟨hs, Prod.ext h hc⟩
  obtain ⟨n, w, hmeasure, e⟩ := e.bind
  obtain ⟨hmeasure, hw⟩ := ends_pool.1 hmeasure
  obtain ⟨_, v, hcheck, e⟩ := e.bind
  obtain ⟨hcheck, hv⟩ := ends_pool.1 hcheck
  obtain ⟨q, rfl⟩ : ∃ q, v = ((q, y.1.2), y.2) := ⟨v.1.1, by rw [hv, hw]⟩
  have hsized : y.1.1.Grows q :=
    Steps.trans (hy.ready.adds_measure hmeasure).grows hcheck.keeps
  have hgrows := Steps.trans hwidened hsized
  have hprepared : y.2.Prepared q := hy.mono hsized.onward
  obtain ⟨f, hf, rfl, rfl⟩ | ⟨hfail, e⟩ := (ends_unfailed fun _ => rfl).1 e
  · exact ⟨hgrows, hprepared, .inl ⟨f, rfl, hf⟩⟩
  -- the pool is complete now, so the class is written
  obtain ⟨hpool, hlong⟩ := ends_checkTexts hcheck hfail
  rw [← hpool] at hmeasure
  obtain ⟨hmeasures, file, hfile, hsize⟩ := hy.ready.written_measure hmeasure hfail
  obtain ⟨rfl, rfl⟩ := e.unique (ends_writeOut hfile hsize hfail hlong)
  exact ⟨hgrows, hprepared, .inr ⟨_, y, n, file, rfl,
    ⟨hwiden, hmeasure, rfl, hfail, hlong, hmeasures, hfile, rfl, hsize⟩⟩⟩

section

variable {out : Buffer} {n : Int} {file : ClassFile}

theorem Serialized.adds (h : Serialized x out y z n file) (hx : x.2.Prepared x.1.1) :
    y.1.1.Adds z.1.1 :=
  (prepared_widenAll hx h.widened).ready.adds_measure h.measured

theorem Serialized.body_eq (h : Serialized x out y z n file) : z.2 = y.2 := by rw [h.rest]

theorem Serialized.session_eq (h : Serialized x out y z n file) : z.1.2 = y.1.2 := by rw [h.rest]

theorem Serialized.no_failure (h : Serialized x out y z n file) (hx : x.2.Prepared x.1.1) :
    x.1.1.failure = none ∧ y.1.1.failure = none := by
  have hy := (h.adds hx).grows.onward.no_failure h.unfailed
  exact ⟨(grows_widenAll h.widened).onward.no_failure hy, hy⟩

theorem Serialized.enters (h : Serialized x out y z n file) (hx : x.2.Prepared x.1.1)
    {counted : Prop} (hwf : x.1.1.Wf { counted }) : y.1.1.Enters z.1.1 counted :=
  (h.adds hx).enters (grows_widenAll h.widened hwf).1

theorem Serialized.size_le (h : Serialized x out y z n file) (hx : x.2.Prepared x.1.1) :
    ∀ id ∈ z.2.written, (z.2.methodOf id).code.size ≤ Method.limit := by
  rw [h.body_eq]
  exact (prepared_widenAll hx h.widened).ready.size_le h.measured h.unfailed

theorem Serialized.hidesWithin (h : Serialized x out y z n file) (hx : x.2.Prepared x.1.1) :
    ∀ id ∈ z.2.written, (z.2.methodOf id).HidesWithin := by
  rw [h.body_eq]
  exact (prepared_widenAll hx h.widened).ready.hidden

theorem Serialized.again (h : Serialized x out y z n file) (hx : x.2.Prepared x.1.1) :
    Ends toBytes z (.ok out) z := by
  have hsettled : z.2.Settled := by
    rw [h.body_eq]
    exact settled_widen (h.no_failure hx).2 h.widened
  have hsession : Ends (getThe Session : ClassM Session) z z.1.2 z :=
    ends_getThe_lift.2 ⟨ends_getThe.2 ⟨rfl, rfl⟩, rfl⟩
  have hwrite : Ends (writeOut z.2 z.1.2 n) z (.ok out) z := by
    rw [h.written]
    exact ends_writeOut h.made (h.written ▸ h.size) h.unfailed h.tooLong
  refine (ends_unfailed fun _ => rfl).2 (.inr ⟨h.unfailed, ?_⟩)
  refine ends_bind.2 ⟨_, z, ends_widen_of_settled hsettled h.unfailed, ?_⟩
  refine (ends_unfailed fun _ => rfl).2 (.inr ⟨h.unfailed, ?_⟩)
  refine ends_bind.2 ⟨_, z, ends_get.2 ⟨rfl, rfl⟩, ends_bind.2 ⟨_, z, hsession, ?_⟩⟩
  refine ends_bind.2 ⟨n, z, ends_pool.2 ⟨h.measures, rfl⟩, ?_⟩
  refine ends_bind.2 ⟨_, z, ends_pool.2 ⟨ends_checkTexts_of_none h.tooLong, rfl⟩, ?_⟩
  exact (ends_unfailed fun _ => rfl).2 (.inr ⟨h.unfailed, hwrite⟩)

end

end ClassM

end ClassAssembler
