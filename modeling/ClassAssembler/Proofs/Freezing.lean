import ClassAssembler.Proofs.Oversized

/-!
# The first failure is final

A call that meets a failure records it, and from then on the class is frozen.  Every visit to the
class or to one of its fields and methods first asks whether there is a failure, so it changes
nothing and hands out no visitor (`Visit.hand_of_failure`).  Annotations still take elements, but no
call replaces the failure that was recorded first (`Call.frozen_of_failure`).
-/

namespace ClassAssembler

open ClassBody ClassM Assembler

/-! ## What a visit hands out -/

/-- What the elements of a field, a method or an annotation are given to. -/
inductive Visitor where
  | field (f : FieldId)
  | method (m : MethodId)
  | elements (id : AnnotationId)
deriving DecidableEq, Repr

namespace Visit

/-- Makes a visit and gives the visitor that it hands out.  None stands for one that
does nothing. -/
def hand : Visit → ClassM (Option Visitor)
  | field access name desc signature value =>
    Option.map .field <$> newField access name desc signature value
  | method access name desc signature exceptions =>
    Option.map .method <$> newMethod access name desc signature exceptions
  | annotation e desc isVisible =>
    Option.map .elements <$> newAnnotationOn e desc isVisible
  | typeAnnotation e ref path desc isVisible =>
    Option.map .elements <$> newTypeAnnotationOn e ref path desc isVisible
  | parameterAnnotation m i desc isVisible =>
    Option.map .elements <$> newParameterAnnotation m i desc isVisible
  | default m => Option.map .elements <$> newDefaultOf m
  | nested id name desc =>
    (some ∘ .elements) <$> onAnnotations (AnnotationM.nested id name desc)
  | array id name => (some ∘ .elements) <$> onAnnotations (AnnotationM.array id name)
  | v => (fun _ => none) <$> v.run

/-- The part of the class that a visit goes to; none for an annotation, a label and the pool. -/
def element? : Visit → Option Element
  | header .. | source .. | outerClass .. | innerClass .. | field .. | method .. => some .body
  | annotation e .. | typeAnnotation e .. | attach e .. | finish e => some e
  | parameterAnnotation m .. | default m | parameter m .. | beginCode m | code m _ =>
    some (.method m)
  | element .. | enumConstant .. | nested .. | array .. | finishAnnotation _ | newLabel
  | register _ => none

end Visit

def ClassBody.Has (c : ClassBody) : Element → Prop
  | .body => True
  | .field f => f < c.fields.size
  | .method m => m < c.methods.size

/-! ## Refusals -/

section Refusals

variable {m : Type → Type} [Monad m] {σ α β : Type} [Stateful m σ] {s : σ}

theorem ends_refused {admits : m Bool} {act : m α} {a : α} (h : Ends admits s false s) :
    Ends (do if ← admits then act else pure a) s a s := by
  rw [ends_bind]
  refine ⟨false, s, h, ?_⟩
  simp

theorem ends_map_none [LawfulMonad m] {x : m (Option α)} {g : α → β} (h : Ends x s none s) :
    Ends (Option.map g <$> x) s none s := by
  rw [ends_map]
  exact ⟨none, h, rfl⟩

end Refusals

variable {f : Failure}

theorem PoolM.ends_hasFailed_of_failure {p : Pool} (hp : p.failure = some f) :
    Ends PoolM.hasFailed p true p := by
  rw [PoolM.ends_hasFailed]
  simp [hp]

theorem ClassM.ends_isOpen_of_failure {p : Pool} (hp : p.failure = some f) (op : String)
    (isEnded : Bool) : Ends (isOpen op isEnded) p false p := by
  unfold isOpen
  rw [ends_bind]
  refine ⟨true, p, PoolM.ends_hasFailed_of_failure hp, ?_⟩
  simp

namespace MethodM

variable {u : Method.State}

theorem ends_isLive_of_failure (hu : u.1.1.failure = some f) (op : String) :
    Ends (isLive op) u false u := by
  unfold isLive
  rw [ends_bind]
  refine ⟨true, u, ?_, ?_⟩
  · simpa [ends_lift] using PoolM.ends_hasFailed_of_failure hu
  · simp

theorem ends_isInCode_of_failure (hu : u.1.1.failure = some f) (op : String) :
    Ends (isInCode op) u false u :=
  ends_refused (ends_isLive_of_failure hu op)

theorem ends_take_of_failure (hu : u.1.1.failure = some f) (e : CodeEvent LabelId) :
    Ends (take e) u () u := by
  cases e with
  | maxs stack locals => exact ends_refused (ends_isLive_of_failure hu _)
  | _ => exact ends_refused (ends_isInCode_of_failure hu _)

end MethodM

namespace ClassM

variable {x : State}

theorem ends_isLive_of_failure (hx : x.1.1.failure = some f) (op : String) :
    Ends (isLive op) x false x := by
  unfold isLive
  rw [ends_bind]
  refine ⟨x.2, x, ends_get.2 ⟨rfl, rfl⟩, ?_⟩
  rw [ends_pool]
  exact ⟨ends_isOpen_of_failure hx op x.2.isEnded, rfl⟩

theorem ends_onMethod_same {α : Type} {act : MethodM α} {a : α} {id : MethodId}
    (hid : x.2.Has (.method id)) (hact : ∀ m, Ends act (x.1, m) a (x.1, m)) :
    Ends (onMethod id act) x a x := by
  obtain ⟨m, hm⟩ : ∃ m, x.2.methods[id]? = some m := ⟨_, Array.getElem?_eq_getElem hid⟩
  have hrun := ends_onMethod_run hm (hact m)
  rwa [withMethod_self hm] at hrun

theorem ends_isElementLive_of_failure (hx : x.1.1.failure = some f) (op : String) {e : Element}
    (he : x.2.Has e) : Ends (isElementLive op e) x false x := by
  cases e with
  | body => exact ends_isLive_of_failure hx op
  | field id =>
    obtain ⟨g, hg⟩ : ∃ g, x.2.fields[id]? = some g := ⟨_, Array.getElem?_eq_getElem he⟩
    unfold isElementLive
    rw [ends_bind]
    refine ⟨g, x, ?_, ?_⟩
    · unfold field
      rw [ends_bind]
      refine ⟨x.2, x, ends_get.2 ⟨rfl, rfl⟩, ?_⟩
      rw [hg]
      exact ends_pure.2 ⟨rfl, rfl⟩
    · rw [ends_pool]
      exact ⟨ends_isOpen_of_failure hx op _, rfl⟩
  | method id => exact ends_onMethod_same he fun m => MethodM.ends_isLive_of_failure hx op

end ClassM

/-! ## Frozen classes -/

namespace Visit

variable {x : State}

/-- After a failure a visit to an element that exists hands out nothing and does nothing. -/
theorem hand_of_failure {v : Visit} {e : Element} (hx : x.1.1.failure = some f)
    (hv : v.element? = some e) (he : x.2.Has e) : Ends v.hand x none x := by
  have hclass (op : String) : Ends (isLive op) x false x :=
    ends_isLive_of_failure hx op
  have hmethod {id : MethodId} {act : MethodM Unit} (hid : x.2.Has (.method id))
      (hact : ∀ m, Ends act (x.1, m) () (x.1, m)) : Ends (onMethod id act) x () x :=
    ends_onMethod_same hid hact
  have hnone {act : ClassM Unit} (h : Ends act x () x) :
      Ends ((fun _ => none : Unit → Option Visitor) <$> act) x none x := by
    rw [ends_map]
    exact ⟨(), h, rfl⟩
  cases v with
  | header => exact hnone (ends_refused (hclass _))
  | source => exact hnone (ends_refused (hclass _))
  | outerClass => exact hnone (ends_refused (hclass _))
  | innerClass => exact hnone (ends_refused (hclass _))
  | field => exact ends_map_none (ends_refused (hclass _))
  | method => exact ends_map_none (ends_refused (hclass _))
  | annotation e' desc isVisible =>
    obtain rfl := Option.some.inj hv
    exact ends_map_none (ends_refused (ends_isElementLive_of_failure hx _ he))
  | typeAnnotation e' ref path desc isVisible =>
    obtain rfl := Option.some.inj hv
    exact ends_map_none (ends_refused (ends_isElementLive_of_failure hx _ he))
  | parameterAnnotation m i desc isVisible =>
    obtain rfl := Option.some.inj hv
    exact ends_map_none (ends_refused (ends_isElementLive_of_failure hx _ he))
  | default m =>
    obtain rfl := Option.some.inj hv
    exact ends_map_none (ends_refused (ends_isElementLive_of_failure hx _ he))
  | attach e' a ofCode =>
    obtain rfl := Option.some.inj hv
    apply hnone
    cases e' with
    | body => exact ends_refused (hclass _)
    | field id => exact ends_refused (ends_isElementLive_of_failure hx _ he)
    | method id => exact hmethod he fun m => ends_refused (MethodM.ends_isLive_of_failure hx _)
  | finish e' =>
    obtain rfl := Option.some.inj hv
    apply hnone
    cases e' with
    | body => exact ends_refused (hclass _)
    | field id => exact ends_refused (ends_isElementLive_of_failure hx _ he)
    | method id => exact hmethod he fun m => ends_refused (MethodM.ends_isLive_of_failure hx _)
  | parameter m name access =>
    obtain rfl := Option.some.inj hv
    exact hnone (hmethod he fun m => ends_refused (MethodM.ends_isLive_of_failure hx _))
  | beginCode m =>
    obtain rfl := Option.some.inj hv
    exact hnone (hmethod he fun m => ends_refused (MethodM.ends_isLive_of_failure hx _))
  | code m event =>
    obtain rfl := Option.some.inj hv
    exact hnone (hmethod he fun m => MethodM.ends_take_of_failure hx event)
  | element | enumConstant | nested | array | finishAnnotation | newLabel | register => cases hv

end Visit

namespace Call

variable {x y : State}

/-- Once some calls have met a failure, all later calls leave it as it is, asking for it or for the
bytes of the class gives exactly this failure, and a visit to the class or to a field or method of
it changes nothing at all and hands out no visitor. -/
theorem frozen_of_failure {compute : Compute} {options : Options} {calls later : List Call}
    (hcalls : Ends (runAll calls)
      (((create compute options).pool, (create compute options).session),
        (create compute options).body) () x)
    (hfailure : x.1.1.failure = some f) (hlater : Ends (runAll later) x () y) :
    y.1.1.failure = some f ∧ Ends (failure? : ClassM (Option Failure)) y (some f) y ∧
      Ends ClassM.toBytes y (.error f) y ∧
      ∀ (v : Visit) (e : Element), v.element? = some e → y.2.Has e → Ends v.hand y none y := by
  obtain ⟨-, hx⟩ := prepared_runAll (prepared_create compute options) hcalls
  obtain ⟨hexpands, -⟩ := prepared_runAll hx hlater
  have hy : y.1.1.failure = some f := hexpands.onward.failure f hfailure
  refine ⟨hy, ?_, ends_toBytes_of_failure hy, ?_⟩
  · rw [ends_pool, failure?]
    simp [hy]
  · intro v e hv he
    exact Visit.hand_of_failure hy hv he

/-- A method loads a handle of an unknown kind, which is noticed before its parts are registered. -/
def failing : List Call := [
  .visit (.header 52 33 "A" "" "B" []), .visit (.method 9 "m" "()V" "" []),
  .visit <| Visit.annotation (.method 0) "LT;" true, .visit (.beginCode 0),
  .visit (.code 0 (.instruction (.constant (.handle ⟨0, "p", "b", "()V", false⟩))))]

/-- An annotation gets an element, and the class is turned into bytes. -/
def annotating : List Call := [.visit (.element 0 "x" (.int 7)), .toBytes]

def unknownHandle : Failure :=
  ⟨.badArgument, "NewHandle", [.string "handle tag"]⟩

set_option maxRecDepth 20000 in
theorem frozen_failing : ∃ x y,
    Ends (runAll failing)
      (((create .nothing {}).pool, (create .nothing {}).session),
        (create .nothing {}).body) () x ∧
    x.1.1.failure = some unknownHandle ∧ Ends (runAll annotating) x () y ∧
    y.1.1.failure = some unknownHandle ∧ Ends ClassM.toBytes y (.error unknownHandle) y ∧
    ∀ event, Ends (Visit.code 0 event).hand y none y := by
  have hfailing : (Stateful.outcome (m := ClassM) (runAll failing)
      (((create .nothing {}).pool, (create .nothing {}).session),
        (create .nothing {}).body)).map (fun r => r.2.1.1.failure) =
      .ok (some unknownHandle) := by
    cbv
  have hall : (Stateful.outcome (m := ClassM) (do runAll failing; runAll annotating)
      (((create .nothing {}).pool, (create .nothing {}).session),
        (create .nothing {}).body)).map (fun r => r.2.2.methods.size) = .ok 1 := by
    cbv
  obtain ⟨_, x, hcalls, hfailure⟩ := exists_ends_of_map hfailing
  obtain ⟨_, y, hends, hsize⟩ := exists_ends_of_map hall
  obtain ⟨_, x', hcalls', hlater⟩ := ends_bind.1 hends
  obtain ⟨-, rfl⟩ := hcalls.unique hcalls'
  obtain ⟨hy, -, hbytes, hvisits⟩ := frozen_of_failure hcalls hfailure hlater
  refine ⟨x, y, hcalls, hfailure, hlater, hy, hbytes, ?_⟩
  intro event
  apply hvisits (.code 0 event) (.method 0) rfl
  show 0 < y.2.methods.size
  rw [hsize]
  exact Nat.one_pos

end Call

end ClassAssembler
