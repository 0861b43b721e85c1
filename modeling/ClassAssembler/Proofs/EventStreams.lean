import ClassAssembler.Proofs.ClassRun
import Mathlib

/-!
# The events of a checked source

A source without errors is told in events that need no further check: the header with a version
that the machine knows, the members in the order of the source, and for each listing the beginning
of the code, its events and its sizes.  In the code of a method every operand is in range, and every
label that is mentioned is placed exactly once and belongs to no other method
(`ClassSource.told_of_check`).
-/

namespace ClassAssembler

open List ClassEvent

variable {T U : Type}

theorem FrameItem.mapTarget_mapTarget {V : Type} (f : T → U) (g : U → V) (x : FrameItem T) :
    (x.mapTarget f).mapTarget g = x.mapTarget (g ∘ f) := by
  cases x <;> rfl

@[simp] theorem FrameItem.mapTarget_id (x : FrameItem T) : x.mapTarget id = x := by
  cases x <;> rfl

theorem Instruction.mapTargets_id (i : Instruction T) : i.mapTargets id = i := by
  cases i <;> simp [Instruction.mapTargets]

namespace CodeEvent

theorem mapTargets_mapTargets {V : Type} (f : T → U) (g : U → V) (e : CodeEvent T) :
    (e.mapTargets f).mapTargets g = e.mapTargets (g ∘ f) := by
  cases e with
  | instruction i => exact congrArg instruction (i.mapTargets_mapTargets f g)
  | frame e => simp [mapTargets, FrameItem.mapTarget_mapTarget]
  | _ => rfl

@[simp] theorem mapTargets_id (e : CodeEvent T) : e.mapTargets id = e := by
  cases e with
  | instruction i => exact congrArg instruction i.mapTargets_id
  | frame e => simp [mapTargets]
  | _ => rfl

@[simp] theorem isListed_mapTargets (f : T → U) (e : CodeEvent T) :
    (e.mapTargets f).IsListed ↔ e.IsListed := by
  cases e <;> rfl

@[simp] theorem inRange_mapTargets (f : T → U) (e : CodeEvent T) :
    (e.mapTargets f).InRange ↔ e.InRange := by
  cases e with
  | instruction i => cases i <;> simp [mapTargets, Instruction.mapTargets, InRange,
    Instruction.InRange]
  | _ => rfl

@[simp] theorem placed?_mapTargets (f : T → U) (e : CodeEvent T) :
    (e.mapTargets f).placed? = e.placed?.map f := by
  cases e <;> rfl

def placements (es : List (CodeEvent T)) : List T := es.filterMap placed?

def mentions (es : List (CodeEvent T)) : List T := es.flatMap targets

theorem placements_mapTargets (f : T → U) (es : List (CodeEvent T)) :
    placements (es.map (mapTargets f)) = (placements es).map f := by
  simp [placements, filterMap_map, map_filterMap]

theorem mentions_mapTargets (f : T → U) (es : List (CodeEvent T)) :
    mentions (es.map (mapTargets f)) = (mentions es).map f := by
  simp [mentions, flatMap_map, map_flatMap, targets_mapTargets]

theorem mem_mentions_of_mem_placements {es : List (CodeEvent T)} {l : T} (h : l ∈ placements es) :
    l ∈ mentions es := by
  rw [placements, mem_filterMap_placed?] at h
  exact mem_flatMap.2 ⟨_, h, mem_cons_self⟩

/-- The events between the beginning of a method's code and its sizes: each is one that a listing
can give, with operands in range, and each label that one of them mentions is placed by exactly one
of them. -/
structure WellFormed (es : List (CodeEvent T)) : Prop where
  listed : ∀ e ∈ es, e.IsListed
  inRange : ∀ e ∈ es, e.InRange
  placed : ∀ l ∈ mentions es, l ∈ placements es
  once : (placements es).Nodup

theorem WellFormed.mapTargets {es : List (CodeEvent T)} (h : WellFormed es) {f : T → U}
    (hf : ∀ a ∈ mentions es, ∀ b ∈ mentions es, f a = f b → a = b) :
    WellFormed (es.map (mapTargets f)) where
  listed := by simpa using h.listed
  inRange := by simpa using h.inRange
  placed := by
    rw [mentions_mapTargets, placements_mapTargets]
    intro l hl
    obtain ⟨a, ha, rfl⟩ := mem_map.1 hl
    exact mem_map_of_mem (h.placed a ha)
  once := by
    rw [placements_mapTargets]
    apply Nodup.map_on _ h.once
    intro a ha b hb
    exact hf a (mem_mentions_of_mem_placements ha) b (mem_mentions_of_mem_placements hb)

end CodeEvent

theorem Listing.wellFormed_events {name code : Text} {l : Listing} (h : read name code = (l, [])) :
    CodeEvent.WellFormed l.events ∧ (.maxs l.maxStack l.maxLocals : CodeEvent Text).InRange := by
  obtain ⟨L, hlisted, hlabels, hsizes, hnodup⟩ := listed_read name code
  rw [h] at hlisted hlabels hsizes hnodup
  refine ⟨⟨fun e he => (hlisted e he).kind, fun e he => (hlisted e he).inRange, ?_, hnodup rfl⟩,
    hsizes⟩
  intro t ht
  obtain ⟨e, he, ht⟩ := mem_flatMap.1 ht
  exact (hlabels t).1 ((hlisted e he).targets t ht)

namespace ClassEvent

def mentions (es : List (ClassEvent T)) : List T := es.flatMap targets

@[simp] theorem mentions_append (es es' : List (ClassEvent T)) :
    mentions (es ++ es') = mentions es ++ mentions es' := flatMap_append

@[simp] theorem mentions_cons (e : ClassEvent T) (es : List (ClassEvent T)) :
    mentions (e :: es) = e.targets ++ mentions es := rfl

@[simp] theorem mentions_nil : mentions ([] : List (ClassEvent T)) = [] := rfl

theorem mentions_code (es : List (CodeEvent T)) :
    mentions (es.map code) = CodeEvent.mentions es := by
  simp [mentions, CodeEvent.mentions, flatMap_map, targets]

theorem mentions_mapTargets (f : T → U) (es : List (ClassEvent T)) :
    mentions (es.map (mapTargets f)) = (mentions es).map f := by
  have htargets (e : ClassEvent T) : (e.mapTargets f).targets = e.targets.map f := by
    cases e with
    | code e => exact e.targets_mapTargets f
    | _ => rfl
  simp [mentions, flatMap_map, map_flatMap, htargets]

@[simp] theorem mapTargets_id (e : ClassEvent T) : e.mapTargets id = e := by
  cases e with
  | code e => exact congrArg code e.mapTargets_id
  | _ => rfl

end ClassEvent

open ClassEvent (mentions)

/-- The events that tell a method of a source, from its opening to its end. -/
inductive MethodSource.Told (s : MethodSource) : List (ClassEvent T) → Prop
  | bodiless (access : Int) (hcode : s.code = []) :
      Told s [.method access s.name s.desc s.signature s.exceptions, .finishMethod]
  | coded (access : Int) {es : List (CodeEvent T)} {stack locals : Int} (hcode : s.code ≠ [])
      (hes : CodeEvent.WellFormed es)
      (hsizes : (.maxs stack locals : CodeEvent T).InRange) :
      Told s (.method access s.name s.desc s.signature s.exceptions :: .beginCode :: es.map .code
        ++ [.code (.maxs stack locals), .finishMethod])

/-- The events that tell the class of a source.  A field is opened and ended by one event. -/
inductive ClassSource.Told (s : ClassSource) : List (ClassEvent T) → Prop
  | intro (version access : Int) {fields : List (ClassEvent T)}
  {methods : List (List (ClassEvent T))}
      (hversion : version = 3 * 65536 + 45 ∨ 46 ≤ version ∧ version ≤ 52)
      (hfields : Forall₂ (fun f e => ∃ access value,
        e = .field access f.name f.desc f.signature value) s.fields fields)
      (hmethods : Forall₂ MethodSource.Told s.methods methods)
      (hlabels : methods.Pairwise fun es es' => (mentions es).Disjoint (mentions es')) :
      Told s (.header version access s.name s.signature s.superName s.interfaces
        :: (if s.source.isEmpty then [] else [.source s.source []])
        ++ fields ++ methods.flatten ++ [.finish])

theorem CheckM.range_of_version? {major version : Int} (h : version? major = some version) :
    version = 3 * 65536 + 45 ∨ 46 ≤ version ∧ version ≤ 52 := by
  unfold version? at h
  split at h
  · obtain rfl := Option.some.inj h
    exact .inr (by omega)
  · split at h
    · exact .inl (Option.some.inj h).symm
    · split at h
      · obtain rfl := Option.some.inj h
        exact .inr (by omega)
      · cases h

namespace CheckedMethod

variable {m : CheckedMethod} {i : Nat} {f : ListingLabel → T}

theorem events_of_bodiless (hl : m.code = none) :
    m.events i =
      [.method m.access.toNat m.name m.desc m.signature m.exceptions, .finishMethod] := by
  simp [events, codeEvents, hl]

theorem events_of_code {l : Listing} (hl : m.code = some l) :
    m.events i = .method m.access.toNat m.name m.desc m.signature m.exceptions :: .beginCode ::
      (l.events.map (CodeEvent.mapTargets (ListingLabel.mk i))).map .code
      ++ [.code (.maxs l.maxStack l.maxLocals), .finishMethod] := by
  simp [events, codeEvents, hl]

theorem mentions_events {l : Listing} (hl : m.code = some l) :
    mentions (m.events i) = (CodeEvent.mentions l.events).map (ListingLabel.mk i) := by
  rw [events_of_code hl, mentions_append]
  simp only [ClassEvent.mentions_cons, ClassEvent.mentions_code, CodeEvent.mentions_mapTargets]
  simp [ClassEvent.targets, CodeEvent.targets]

theorem method_of_mem_mentions {a : ListingLabel} (h : a ∈ mentions (m.events i)) :
    a.method = i := by
  cases hcode : m.code with
  | none =>
    rw [events_of_bodiless hcode] at h
    simp [ClassEvent.targets] at h
  | some l =>
    rw [mentions_events hcode] at h
    obtain ⟨t, -, rfl⟩ := mem_map.1 h
    rfl

theorem told_events {s : MethodSource} (h : s.Gives m)
    (hf : ∀ a ∈ mentions (m.events i), ∀ b ∈ mentions (m.events i), f a = f b → a = b) :
    s.Told ((m.events i).map (ClassEvent.mapTargets f)) := by
  by_cases hempty : s.code = []
  · have hcode : m.code = none := by rw [h.code, hempty]; rfl
    rw [events_of_bodiless hcode, h.name, h.desc, h.signature, h.exceptions]
    exact .bodiless _ hempty
  · have hnonempty : s.code.isEmpty = false := by simpa using hempty
    have hcode : m.code = some (Listing.read (s.name ++ s.desc) s.code).1 := by
      rw [h.code, hnonempty]
      rfl
    obtain ⟨hwellFormed, hsizes⟩ := Listing.wellFormed_events (Prod.ext rfl (h.errors hnonempty))
    have hmap : (((Listing.read (s.name ++ s.desc) s.code).1.events.map (CodeEvent.mapTargets
        (ListingLabel.mk i))).map ClassEvent.code).map (ClassEvent.mapTargets f) =
        ((Listing.read (s.name ++ s.desc) s.code).1.events.map (CodeEvent.mapTargets
          (f ∘ ListingLabel.mk i))).map .code := by
      simp only [map_map]
      exact map_congr_left fun e _ => congrArg ClassEvent.code (e.mapTargets_mapTargets _ _)
    rw [events_of_code hcode, h.name, h.desc, h.signature, h.exceptions, map_append,
      map_cons, map_cons, hmap]
    refine .coded _ hempty (hwellFormed.mapTargets ?_) hsizes
    rw [mentions_events hcode] at hf
    intro t ht t' ht' heq
    have hsame := hf _ (mem_map_of_mem ht) _ (mem_map_of_mem ht') heq
    exact congrArg ListingLabel.name hsame

end CheckedMethod

namespace CheckedClass

variable {c : CheckedClass}

def methodEvents (c : CheckedClass) : List (List (ClassEvent ListingLabel)) :=
  c.methods.zipIdx.map fun (m, i) => m.events i

theorem mem_mentions_events {es : List (ClassEvent ListingLabel)} (hes : es ∈ c.methodEvents)
    {a : ListingLabel} (ha : a ∈ mentions es) : a ∈ mentions c.events := by
  obtain ⟨e, he, ha⟩ := mem_flatMap.1 ha
  refine mem_flatMap.2 ⟨e, ?_, ha⟩
  simp only [events, mem_append]
  exact .inl (.inr (mem_flatten.2 ⟨es, hes, he⟩))

theorem pairwise_methodEvents (c : CheckedClass) :
    c.methodEvents.Pairwise fun es es' => ∀ a ∈ mentions es, ∀ b ∈ mentions es', a ≠ b := by
  rw [methodEvents, pairwise_map, pairwise_iff_getElem]
  intro i j hi hj hij a ha b hb hab
  simp only [getElem_zipIdx] at ha hb
  have hmethod := CheckedMethod.method_of_mem_mentions ha
  have hmethod' := CheckedMethod.method_of_mem_mentions hb
  rw [hab] at hmethod
  omega

theorem forall₂_methodEvents {s : ClassSource} (h : s.Gives c) {f : ListingLabel → T}
    (hf : ∀ a ∈ mentions c.events, ∀ b ∈ mentions c.events, f a = f b → a = b) :
    Forall₂ MethodSource.Told s.methods
      (c.methodEvents.map (List.map (mapTargets f))) := by
  rw [forall₂_map_right_iff, methodEvents, forall₂_map_right_iff]
  have hmethods := h.methods
  rw [forall₂_iff_get] at hmethods ⊢
  obtain ⟨hlength, hgives⟩ := hmethods
  refine ⟨by simpa using hlength, fun i hi hi' => ?_⟩
  have hi'' : i < c.methods.length := by simpa using hi'
  have hmem : c.methods[i].events i ∈ c.methodEvents :=
    mem_map.2 ⟨(c.methods[i], i), mk_mem_zipIdx_iff_getElem?.2
      (getElem?_eq_getElem hi''), rfl⟩
  simp only [get_eq_getElem, getElem_zipIdx, Nat.zero_add]
  apply CheckedMethod.told_events (hgives i hi hi'')
  intro a ha b hb
  exact hf a (mem_mentions_events hmem ha) b (mem_mentions_events hmem hb)

theorem told_map_events {s : ClassSource} (h : s.Gives c) {f : ListingLabel → T}
    (hf : ∀ a ∈ mentions c.events, ∀ b ∈ mentions c.events, f a = f b → a = b) :
    s.Told (c.events.map (mapTargets f)) := by
  have hsource : (if c.source.isEmpty then [] else [ClassEvent.source c.source []]).map
      (mapTargets f) = if s.source.isEmpty then [] else [.source s.source []] := by
    rw [h.source]
    split <;> rfl
  have hevents : c.events.map (mapTargets f) =
      .header c.version c.access.toNat s.name s.signature s.superName s.interfaces
        :: (if s.source.isEmpty then [] else [.source s.source []])
        ++ (c.fields.map CheckedField.event).map (mapTargets f)
        ++ (c.methodEvents.map (List.map (mapTargets f))).flatten ++ [.finish] := by
    rw [← h.name, ← h.signature, ← h.super, ← h.interfaces, ← hsource, ← map_flatten]
    simp only [events, methodEvents, map_append, map_cons]
    rfl
  rw [hevents]
  refine .intro _ _ ?_ ?_ (forall₂_methodEvents h hf) ?_
  · exact CheckM.range_of_version? h.version
  · rw [map_map, forall₂_map_right_iff]
    refine h.fields.imp fun field field' hgives => ⟨field'.access.toNat, field'.value, ?_⟩
    rw [← hgives.name, ← hgives.desc, ← hgives.signature]
    rfl
  · rw [pairwise_map]
    apply (Pairwise.and_mem.1 c.pairwise_methodEvents).imp
    rintro es es' ⟨hes, hes', hne⟩ l hl hl'
    rw [mentions_mapTargets] at hl hl'
    obtain ⟨a, ha, rfl⟩ := mem_map.1 hl
    obtain ⟨b, hb, heq⟩ := mem_map.1 hl'
    exact hne a ha b hb (hf b (mem_mentions_events hes' hb) a (mem_mentions_events hes ha) heq).symm

end CheckedClass

/-- A source without errors is told in well-formed events, with the labels of its listings as well
as with the numbers that an assembler takes for them. -/
theorem ClassSource.told_of_check {s : ClassSource} {c : CheckedClass} (h : s.check = .ok c) :
    s.Told c.events ∧ s.Told (number c.events) := by
  have hgives := s.gives_of_check h
  constructor
  · have htold := CheckedClass.told_map_events hgives (f := id) fun a _ b _ hab => hab
    rwa [show (mapTargets id : ClassEvent ListingLabel → _) = id from
      funext mapTargets_id, map_id] at htold
  · apply CheckedClass.told_map_events hgives
    intro a ha b hb hab
    obtain ⟨hproper, hnumbered⟩ := Numbering.proper_ofEvents c.events
    obtain ⟨e, he, ha⟩ := mem_flatMap.1 ha
    obtain ⟨e', he', hb⟩ := mem_flatMap.1 hb
    obtain ⟨l, hl⟩ := hnumbered e he a ha
    obtain ⟨l', hl'⟩ := hnumbered e' he' b hb
    rw [Std.HashMap.getD_eq_getD_getElem?, Std.HashMap.getD_eq_getD_getElem?, hl, hl'] at hab
    obtain rfl : l = l' := hab
    exact hproper.injective a b l hl hl'

/-! ## A loop -/

namespace Listing

theorem read_loop (method : Text) : read method "A:\ngoto A" =
    ({ events := [.label "A", .instruction (.jump 167 "A")] }, []) := by
  have hlines : (Text.split 10 "A:\ngoto A").map tokens =
      [.ok ["A:"], .ok ["goto", "A"]] := by decide +kernel
  have hplaced : definedLabel? ["A:"] = some "A" := by decide +kernel
  have hjump : definedLabel? ["goto", "A"] = none := by decide +kernel
  let r : Reading := { method, line := 2, labels := (∅ : Std.HashSet Text).insert "A" }
  have hcollect : ((collectLabels [.ok ["A:"], .ok ["goto", "A"]] 1).run { method }).2 = r := by
    simp only [run_collectLabels_cons, run_collectLabel, lineLabel?, Except.toOption, Option.bind,
      hplaced, hjump]
    simp [r]
    rfl
  refine read_of_run hlines (?_ : _ = ((#[.label "A", .instruction (.jump 167 "A")] :
    Array (CodeEvent Text)), r))
  rw [hcollect, run_readEvents_cons, event?_label hplaced, run_readEvents_cons,
    event?_goto hjump (by simp [r])]
  rfl

end Listing

/-- A method that jumps to its beginning is told with the label of its jump. -/
theorem ClassSource.told_loop : ∃ c, (ofCode "A:\ngoto A").check = .ok c ∧
    (ofCode "A:\ngoto A").Told c.events ∧
    (ofCode "A:\ngoto A").Told (number c.events) := by
  have hcheck := check_ofCode (by decide) (Listing.read_loop "m()V")
  exact ⟨_, hcheck, told_of_check hcheck⟩

end ClassAssembler
