import Mathlib
import ClassAssembler.Proofs.Visits

/-!
# Calls to an assembler

A class under construction is visited, asked for indices of constants and turned into bytes, in any
order and whatever the visits and the constants are.  After all such calls the class is prepared to
be turned into bytes (`Call.prepared_runAll`).  The result of `Call.repeats_toBytes` is that this
succeeds with the size that was predicted or fails for another reason than a wrong size, writes the
pool that stays, and can be repeated.
-/

namespace ClassAssembler

open Buffer Assembler

/-! ## Steps that keep a class prepared -/

namespace ClassBody

variable {x y : State}

/-- Work on a class after which it is as prepared as before. -/
structure Readies (x y : State) : Prop where
  expands : x.1.1.Expands y.1.1
  prepared : x.2.Prepared x.1.1 → y.2.Prepared y.1.1

instance : Steps Readies where
  refl x := ⟨Steps.refl x.1.1, id⟩
  trans h h' := ⟨Steps.trans h.expands h'.expands, fun hx => h'.prepared (h.prepared hx)⟩

theorem readies_of_members (hexpands : x.1.1.Expands y.1.1) (hfields : y.2.fields = x.2.fields)
    (hwritten : y.2.written = x.2.written) (hmethods : y.2.methods = x.2.methods)
    (hnest : y.2.nest = x.2.nest) : Readies x y := by
  refine ⟨hexpands, fun hx => ?_⟩
  have hy := hx.mono hexpands.onward
  refine ⟨?_, ?_, hx.inner.congr hexpands.onward hnest⟩
  · rw [hfields]
    exact hy.signatures
  · rw [hwritten, hmethods]
    exact hy.methods

theorem Tended.readies (h : Tended x y) : Readies x y := by
  refine ⟨h.grows.expands, fun hx => ⟨fun f hf hne => ?_, fun id hid => ?_, h.inner hx.inner⟩⟩
  · have hface : f.face ∈ x.2.fields.toList.map Field.face := by
      rw [← h.fields]
      exact List.mem_map_of_mem (Array.mem_toList_iff.2 hf)
    obtain ⟨g, hg, hgf⟩ := List.mem_map.1 hface
    have hsignature : g.signature = f.signature := congrArg (·.2.2.2.1) hgf
    rw [← hsignature] at hne ⊢
    exact h.grows.onward.known _ (hx.signatures g (Array.mem_toList_iff.1 hg) hne)
  · rw [h.written] at hid
    obtain ⟨m, hm, htallied⟩ := hx.methods id hid
    obtain ⟨m', hm', -, -, htallied'⟩ := h.methods id m hm
    exact ⟨m', hm', htallied' htallied⟩

/-- A change of a class that leaves its members and its inner classes alone. -/
class Membered (f : ClassBody → ClassBody) : Prop where
  fields : ∀ c, (f c).fields = c.fields
  written : ∀ c, (f c).written = c.written
  methods : ∀ c, (f c).methods = c.methods
  nest : ∀ c, (f c).nest = c.nest

instance (access : ClassBody → Flags)
    (thisIndex signatureIndex superIndex : ClassBody → Nat) (interfaces : ClassBody → List Nat) :
    Membered fun c =>
      { c with
        access := access c, thisIndex := thisIndex c, signatureIndex := signatureIndex c,
        superIndex := superIndex c, interfaces := interfaces c } :=
  ⟨fun _ => rfl, fun _ => rfl, fun _ => rfl, fun _ => rfl⟩

end ClassBody

namespace ClassM

open ClassBody

section

variable {α : Type} {x y : State}

instance readies_lift {n : Type → Type} [MonadLiftT n SessionM] {act : n α}
    [hact : Keeps Quiet (liftM act : SessionM α)] :
    Keeps Readies (liftM act : ClassM α) :=
  keeps_lift hact fun _ _ _ h => readies_of_members h.grows.expands rfl rfl rfl rfl

instance readies_modify (f : ClassBody → ClassBody) [hf : Membered f] :
    Keeps Readies (modify f : ClassM PUnit) := by
  refine ⟨fun x a y h => ?_⟩
  obtain rfl := h.modify
  exact readies_of_members (Steps.refl x.1.1) (hf.fields x.2) (hf.written x.2)
    (hf.methods x.2) (hf.nest x.2)

instance readies_setHeader (version : Int) (name : Text) :
    Keeps Readies
      (modifyThe Session (fun s => { s with version, thisName := name }) : ClassM PUnit) := by
  refine ⟨fun x a y h => ?_⟩
  simp only [ends_modifyThe_lift] at h
  obtain ⟨h, hc⟩ := h
  obtain ⟨y₁, y₂⟩ := y
  obtain rfl : _ = y₁ := h.modify
  refine readies_of_members (Steps.refl x.1.1) ?_ ?_ ?_ ?_ <;> rw [hc]

instance readies_isLive (op : String) : Keeps Readies (isLive op) := by
  unfold isLive
  infer_instance

instance readies_header (version access : Int) (name signature super : Text)
    (interfaces : List Text) :
    Keeps Readies (header version access name signature super interfaces) := by
  unfold header
  refine keeps_then fun live => ?_
  dsimp only
  split
  · split
    · infer_instance
    · exact keeps_then fun _ => keeps_then fun _ =>
        keeps_then fun _ => inferInstance
  · infer_instance

theorem readies_onMethod {id : MethodId} {act : MethodM α}
    (hact : ∀ u a v, Ends act u a v →
      u.1.1.Expands v.1.1 ∧ (u.2.Tallied u.1.1 → v.2.Tallied v.1.1)) :
    Keeps Readies (onMethod id act) := by
  refine ⟨fun x a y e => ?_⟩
  obtain ⟨m, m', hm, hrun, hy⟩ := ends_onMethod e
  obtain ⟨hexpands, hkeep⟩ := hact _ _ _ hrun
  have honward := hexpands.onward
  refine ⟨hexpands, fun hx => ?_⟩
  rw [hy]
  refine ⟨fun f hf hne => honward.known _ (hx.signatures f hf hne), fun id' hid => ?_,
    hx.inner.congr honward rfl⟩
  obtain ⟨m₁, hm₁, htallied⟩ := hx.methods id' hid
  by_cases heq : id = id'
  · subst heq
    rw [hm] at hm₁
    obtain rfl := Option.some.inj hm₁
    exact ⟨m', getElem?_withMethod hm, hkeep htallied⟩
  · refine ⟨m₁, ?_, htallied.mono honward⟩
    rw [withMethod, Array.getElem?_setIfInBounds_ne heq]
    exact hm₁

end

/-! ## New members -/

variable {x y : State}

theorem Pooled.readies (h : Pooled x y) : Readies x y :=
  h.tended.readies

theorem ends_optionalText {β : Type} {t : Text} {k : ClassM β} {b : β}
    (e : Ends (if t.isEmpty then k else do discard (liftM (PoolM.utf8 t) : ClassM Nat); k) x b y) :
    ∃ w, Pooled x w ∧ (t ≠ [] → w.1.1.Knows (.utf8 t)) ∧ Ends k w b y := by
  split at e
  next hempty => exact ⟨x, Steps.refl x, fun hne => absurd (by simpa using hempty) hne, e⟩
  next =>
    obtain ⟨_, w, h, e⟩ := e.bind
    obtain ⟨i, h⟩ := ends_discard.1 h
    exact ⟨w, h.keeps, fun _ => PoolM.knows_utf8 (ends_pool.1 h).1, e⟩

theorem ends_newField {access : Int} {name desc signature : Text} {value : Value}
    {id : Option FieldId} (e : Ends (newField access name desc signature value) x id y) :
    Pooled x y ∧ y.1.1.failure ≠ none ∨ ∃ i p₁ j p₂ k, Ends (PoolM.utf8 name) x.1.1 i p₁ ∧
      Ends (PoolM.utf8 desc) p₁ j p₂ ∧ p₂.Grows y.1.1 ∧
      (signature ≠ [] → y.1.1.Knows (.utf8 signature)) ∧
      (value ≠ .nil → ∃ p₃, p₂.Grows p₃ ∧ Ends (PoolM.value value) p₃ k y.1.1) ∧
      y = ((y.1.1, x.1.2),
        { x.2 with
          fields := x.2.fields.push
            { access := .ofInt access, nameIndex := i, descIndex := j, signature
              valueIndex := k } }) := by
  obtain ⟨live, w, hlive, e⟩ := e.bind
  have hpooled : Pooled x w := hlive.keeps
  rcases ends_isLive hlive with ⟨rfl, rfl⟩ | ⟨rfl, hw⟩
  · rw [if_pos rfl] at e
    obtain ⟨i, x₁, h₁, e⟩ := e.bind
    obtain ⟨j, x₂, h₂, e⟩ := e.bind
    obtain ⟨h₁, hx₁⟩ := ends_pool.1 h₁
    obtain ⟨h₂, hx₂⟩ := ends_pool.1 h₂
    obtain ⟨x₃, hx₃, hsignature, e⟩ := ends_optionalText e
    obtain ⟨k, x₄, hx₄, hvalue, e⟩ := ends_either inferInstance inferInstance e
    replace e := ends_get_bind.1 e
    obtain ⟨_, x₅, hpush, e⟩ := e.bind
    obtain ⟨-, rfl⟩ := e.pure
    have hlater : Pooled x₂ x₄ := Steps.trans hx₃ hx₄
    rw [← hpush.modify]
    refine .inr ⟨i, _, j, _, k, h₁, h₂, hlater.grows, fun hne =>
      hx₄.grows.onward.known _ (hsignature hne),
      fun hne => ⟨_, hx₃.grows, (ends_pool.1 (hvalue hne)).1⟩, ?_⟩
    rw [hlater.rest, hx₂, hx₁]
  · rw [if_neg (by simp)] at e
    obtain ⟨-, rfl⟩ := e.pure
    exact .inl ⟨hpooled, hw⟩

theorem readies_newField (access : Int) (name desc signature : Text) (value : Value) :
    Keeps Readies (newField access name desc signature value) := by
  refine ⟨fun x a y e => ?_⟩
  obtain ⟨hpooled, -⟩ | ⟨i, p₁, j, p₂, k, h₁, h₂, hlater, hsignature, -, hy⟩ := ends_newField e
  · exact hpooled.readies
  have hname : x.1.1.Grows p₁ := h₁.keeps
  have hdesc : p₁.Grows p₂ := h₂.keeps
  have hgrows := Steps.trans hname (Steps.trans hdesc hlater)
  have honward := hgrows.onward
  refine ⟨hgrows.expands, fun hx => ?_⟩
  rw [hy]
  refine ⟨fun f hf hne => ?_, (hx.mono honward).methods, hx.inner.congr honward rfl⟩
  rcases Array.mem_push.1 hf with hf | rfl
  · exact honward.known _ (hx.signatures f hf hne)
  · exact hsignature hne

theorem tallied_create {compute : Compute} {access : Int} {name desc signature : Text}
    {exceptions : List Text} {s t : Pool × Session} {m : Method}
    (e : Ends (Method.create compute access name desc signature exceptions) s m t) :
    m.Tallied t.1 := by
  obtain ⟨s₁, flags, nameIndex, descIndex, thrown, -, hopen⟩ := Method.ends_create e
  have hsteady : Method.Steady _ _ := hopen.keeps
  have hmapped := hsteady.mapped (Method.mapped_empty rfl)
  refine Method.Tallied.congr (p := s₁.1) ?_ hsteady.header hmapped
  exact ⟨Nat.zero_le _, nofun, nofun, rfl, Method.mapped_empty rfl⟩

theorem readies_newMethod (access : Int) (name desc signature : Text) (exceptions : List Text) :
    Keeps Readies (newMethod access name desc signature exceptions) := by
  refine ⟨fun x a y e => ?_⟩
  obtain ⟨hlive, -⟩ | ⟨-, m, hm, hy⟩ := ends_newMethod e
  · have hpooled : Pooled x y := hlive.keeps
    exact hpooled.readies
  · have hgrows := Method.grows_create hm
    have honward := hgrows.onward
    refine ⟨hgrows.expands, fun hx => ?_⟩
    rw [hy]
    refine ⟨fun f hf hne => honward.known _ (hx.signatures f hf hne), fun id hid => ?_,
      hx.inner.congr honward rfl⟩
    rcases Array.mem_push.1 hid with hid | rfl
    · obtain ⟨m', hm', htallied⟩ := hx.methods id hid
      exact ⟨m', getElem?_push_of_some hm' m, htallied.mono honward⟩
    · exact ⟨m, getElem?_added .., tallied_create hm⟩

end ClassM

/-! ## Code with lists of any length -/

namespace Method

variable {u v : State}

/-- Work on a method that keeps its lists as they are counted. -/
structure Held (u v : State) : Prop where
  expands : u.1.1.Expands v.1.1
  tallied : u.2.Tallied u.1.1 → v.2.Tallied v.1.1

instance : Steps Held where
  refl u := ⟨Steps.refl u.1.1, id⟩
  trans h h' := ⟨Steps.trans h.expands h'.expands, fun hu => h'.tallied (h.tallied hu)⟩

instance {α : Type} (act : MethodM α) [h : Keeps Steady act] : Keeps Held act := by
  refine ⟨fun u a v e => ?_⟩
  have hsteady := h.run u a v e
  exact ⟨hsteady.grows.expands, fun hu => hu.congr hsteady.header (hsteady.mapped hu.mapped)⟩

instance {α : Type} (act : PoolM α) [h : Keeps Pool.Expands act] :
    Keeps Held (liftM act : MethodM α) := by
  refine ⟨fun u a v e => ?_⟩
  obtain ⟨hact, -, hm⟩ := MethodM.ends_pool e
  have hexpands := h.run _ _ _ hact
  refine ⟨hexpands, fun hu => ?_⟩
  rw [hm]
  exact hu.mono hexpands.onward

end Method

namespace MethodM

open Method

instance held_dynamic (name desc : Text) (method : Handle) (args : List Value) :
    Keeps Held (dynamic name desc method args) := by
  refine keeps_then fun r => ?_
  infer_instance

instance held_write (i : Instruction LabelId) : Keeps Held i.write := by
  cases i with
  | dynamic name desc method args => exact held_dynamic name desc method args
  | _ => unfold Instruction.write; infer_instance

instance held_take (e : CodeEvent LabelId) : Keeps Held (take e) := by
  cases e <;> (unfold take; infer_instance)

end MethodM

/-! ## Calls -/

namespace Visit

open ClassBody

theorem readies_run (v : Visit) : Keeps Readies v.run := by
  cases v with
  | header => exact ClassM.readies_header ..
  | field access name desc signature value =>
    have := ClassM.readies_newField access name desc signature value
    unfold run
    infer_instance
  | method access name desc signature exceptions =>
    have := ClassM.readies_newMethod access name desc signature exceptions
    unfold run
    infer_instance
  | code m event =>
    refine ClassM.readies_onMethod fun u a w e => ?_
    have hheld : Method.Held u w := e.keeps
    exact ⟨hheld.expands, hheld.tallied⟩
  | _ =>
    refine ⟨fun x a y e => Tended.readies ((tended_run ?_ ?_).run _ _ _ e)⟩
    · exact trivial
    · exact trivial

theorem readies_runAll (vs : List Visit) : Keeps Readies (runAll vs) := by
  induction vs with
  | nil => exact keeps_pure _
  | cons v vs ih => exact Keeps.bind (readies_run v) fun _ => ih

end Visit

inductive Call where
  | visit (v : Visit)
  | callSite (name desc : Text) (method : Handle) (args : List Value)
  | toBytes

namespace Call

open ClassBody

def run : Call → ClassM Unit
  | visit v => v.run
  | callSite name desc method args => discard <|
  (PoolM.dynamicEntry name desc method args : ClassM _)
  | toBytes => discard ClassM.toBytes

def runAll : List Call → ClassM Unit
  | [] => return
  | c :: cs => do
    c.run
    runAll cs

variable {x y z : State}

theorem prepared_run {c : Call} (hx : x.2.Prepared x.1.1) (e : Ends c.run x () y) :
    x.1.1.Expands y.1.1 ∧ y.2.Prepared y.1.1 := by
  cases c with
  | visit v =>
    have hready : Readies x y := v.readies_run.run _ _ _ e
    exact ⟨hready.expands, hready.prepared hx⟩
  | callSite name desc method args =>
    obtain ⟨_, e⟩ := ends_discard.1 e
    obtain ⟨h, hy⟩ := ClassM.ends_pool.1 e
    have hready : Readies x y := by
      refine readies_of_members h.keeps ?_ ?_ ?_ ?_ <;> rw [hy]
    exact ⟨hready.expands, hready.prepared hx⟩
  | toBytes =>
    obtain ⟨r, e⟩ := ends_discard.1 e
    obtain ⟨hgrows, hy, -⟩ := ClassM.ends_toBytes hx e
    exact ⟨hgrows.expands, hy⟩

/-- After any calls the pool knows the texts that the attributes of the class will need. -/
theorem prepared_runAll {cs : List Call} (hx : x.2.Prepared x.1.1) (e : Ends (runAll cs) x () y) :
    x.1.1.Expands y.1.1 ∧ y.2.Prepared y.1.1 := by
  induction cs generalizing x with
  | nil =>
    obtain ⟨-, rfl⟩ := e.pure
    exact ⟨Steps.refl x.1.1, hx⟩
  | cons c cs ih =>
    obtain ⟨_, w, h, e⟩ := e.bind
    obtain ⟨hexpands, hw⟩ := prepared_run hx h
    obtain ⟨hexpands', hy⟩ := ih hw e
    exact ⟨Steps.trans hexpands hexpands', hy⟩

theorem prepared_create (compute : Compute) (options : Options) :
    (create compute options).body.Prepared (create compute options).pool := by
  obtain ⟨-, -, hbody⟩ := CheckedClass.start_create compute options
  rw [hbody]
  exact ⟨nofun, nofun, rfl, rfl, fun name hname => absurd hname Std.HashSet.not_mem_empty⟩

theorem early_create {compute : Compute} {options : Options} {f : Failure}
    (h : (create compute options).pool.failure = some f) : f.cause.Early := by
  unfold create at h
  dsimp only at h
  split at h
  · cases h
  · split at h
    · cases h
    · obtain h | hearly := (Pool.onward_recordFailure _ _).cause f h
      · cases h
      · exact hearly

theorem pool_of_write {body : ClassBody} {session : Session} {p q : Pool} {file : ClassFile}
    (e : Ends (body.toClassFile session) p file q) (room : Int) :
    bytes16 p.count ++ p.bytes.toList <+: (file.write room).toList.drop 8 := by
  obtain ⟨_, _, h, e⟩ := e.bind
  obtain ⟨rfl, rfl⟩ := ends_pool_get.1 h
  obtain ⟨fields, _, -, e⟩ := e.bind
  obtain ⟨methods, _, -, e⟩ := e.bind
  obtain ⟨attributes, _, -, e⟩ := e.bind
  obtain ⟨rfl, -⟩ := e.pure
  rw [ClassFile.toList_write]
  exact List.prefix_append ..

theorem ends_toBytes_of_failure {f : Failure} (h : z.1.1.failure = some f) :
    Ends ClassM.toBytes z (.error f) z :=
  (ClassM.ends_unfailed fun _ => rfl).2 (.inl ⟨f, h, rfl, rfl⟩)

/-- After any calls, turning the class into bytes does not fail for a wrong size.  What it gives has
the size that was predicted, and it has the pool as it is after the class was written.  Doing it
again gives the same and changes nothing. -/
theorem repeats_toBytes {compute : Compute} {options : Options} {calls : List Call}
    {r : Except Failure Buffer}
    (hcalls : Ends (runAll calls)
      (((create compute options).pool, (create compute options).session),
        (create compute options).body) () x)
    (hbytes : Ends ClassM.toBytes x r z) :
    ((∃ f, r = .error f ∧ f.cause.code ≠ "J0900") ∨
      ∃ out y n file, r = .ok out ∧ ClassM.Serialized x out y z n file ∧
        bytes16 z.1.1.count ++ z.1.1.bytes.toList <+: out.toList.drop 8) ∧
      Ends ClassM.toBytes z r z := by
  obtain ⟨hexpands, hx⟩ := prepared_runAll (prepared_create compute options) hcalls
  obtain ⟨hlater, -, ⟨f, rfl, hf⟩ | ⟨out, y, n, file, rfl, hserialized⟩⟩ :=
    ClassM.ends_toBytes hx hbytes
  · refine ⟨.inl ⟨f, rfl, ?_⟩, ends_toBytes_of_failure hf⟩
    obtain hcreate | hearly := (Steps.trans hexpands.onward hlater.onward).cause f hf
    · exact (early_create hcreate).ne
    · exact hearly.ne
  · refine ⟨.inr ⟨out, y, n, file, rfl, hserialized, ?_⟩, hserialized.again hx⟩
    rw [hserialized.written]
    exact pool_of_write hserialized.made n

/-- A class with a field is turned into bytes, and then it gets a method. -/
def sample : List Call := [
  .visit (.header 52 33 "A" "" "B" []), .visit (.field 8 "n" "I" "TT;" .nil), .toBytes,
  .visit (.method 9 "m" "()V" "" []), .visit (.beginCode 0),
  .visit (.code 0 (.instruction (.plain 177))), .visit (.code 0 (.maxs 0 1))]

set_option maxRecDepth 20000 in
theorem repeats_sample : ∃ x out y z n file,
    Ends (runAll sample)
      (((create .nothing {}).pool, (create .nothing {}).session),
        (create .nothing {}).body) () x ∧
    ClassM.Serialized x out y z n file ∧
    bytes16 z.1.1.count ++ z.1.1.bytes.toList <+: out.toList.drop 8 ∧
    Ends ClassM.toBytes z (.ok out) z := by
  have hrun : (Stateful.outcome (do runAll sample; ClassM.toBytes)
      (((create .nothing {}).pool, (create .nothing {}).session),
        (create .nothing {}).body)).map (fun r => r.1.toBool) = .ok true := by
    cbv
  obtain ⟨result, z, hends, hok⟩ := exists_ends_of_map hrun
  obtain ⟨_, x, hcalls, hbytes⟩ := ends_bind.1 hends
  obtain ⟨⟨f, rfl, -⟩ | ⟨out, y, n, file, rfl, hserialized, hpool⟩, hagain⟩ :=
    repeats_toBytes hcalls hbytes
  · cases hok
  · exact ⟨x, out, y, z, n, file, hcalls, hserialized, hpool, hagain⟩

end Call

end ClassAssembler
