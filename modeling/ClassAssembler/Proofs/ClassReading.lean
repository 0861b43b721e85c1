import ClassAssembler.Proofs.Serialization

/-!
# Reading the class file of a class

When a class is turned into bytes without a failure, a reader of class files takes exactly these
bytes and finds the class that was recorded: `ClassBody.Stands` says so part by part, and
`ClassM.Serialized.reads` is the result.  The only condition is that every list fits the field that
holds its length (`ClassBody.Fits`).
-/

namespace ClassAssembler

open Buffer Format List

namespace Content

/-- The lists of an attribute fit the fields that hold their lengths. -/
structure Fits (c : Content) : Prop where
  length : c.length < 0x100000000
  handlers : ∀ m major position, c = code m major position → m.handlers.size < 65536
  tables : ∀ m major position, c = code m major position → (m.tables major).length < 65536

theorem fits_code {m : Method} {major : Int} {position : LabelId → Nat}
    (hlength : (code m major position).length < 0x100000000) (hhandlers : m.handlers.size < 65536)
    (htables : (m.tables major).length < 65536) : (code m major position).Fits := by
  refine ⟨hlength, ?_, ?_⟩
  · rintro _ _ _ ⟨⟩
    exact hhandlers
  · rintro _ _ _ ⟨⟩
    exact htables

instance : (c : Content) → Decidable c.Fits
  | .bytes bs => decidable_of_iff ((bytes bs).length < 0x100000000)
      ⟨fun h => ⟨h, by rintro _ _ _ ⟨⟩, by rintro _ _ _ ⟨⟩⟩, fun h => h.length⟩
  | .text x => decidable_of_iff ((text x).length < 0x100000000)
      ⟨fun h => ⟨h, by rintro _ _ _ ⟨⟩, by rintro _ _ _ ⟨⟩⟩, fun h => h.length⟩
  | .code m major position => decidable_of_iff
      ((code m major position).length < 0x100000000 ∧ m.handlers.size < 65536 ∧
        (m.tables major).length < 65536)
      ⟨fun h => fits_code h.1 h.2.1 h.2.2, fun h => ⟨h.length, h.handlers _ _ _ rfl,
        h.tables _ _ _ rfl⟩⟩

end Content

/-! ## Attributes -/

/-- A table shows the constants of a pool. -/
structure Shows (t : Table) (q : Pool) : Prop where
  length : t.length = q.count
  means : ∀ i c, q.at? i = some c → t.Means i c

theorem reads_cut (v : Int) : (number 2).Reads (bytes16 v) (v % 65536).toNat := by
  refine reads_number rfl ?_
  have := Machine.unsigned_bytes16 v
  omega

section

variable {q : Pool} {t : Table} (hq : q.Wf) (hf : q.failure = none) (ht : Shows t q)

include hq hf

def Handler.info (position : LabelId → Nat) (h : Handler) : HandlerInfo where
  start := position h.start % 65536
  stop := position h.stop % 65536
  handler := position h.handler % 65536
  caught := h.caughtIndex

theorem Handler.reads {m : Method} {position : LabelId → Nat} {h : Handler} (hm : m.Indexed q)
    (hh : h ∈ m.handlers) : handlerInfo.Reads (h.bytes position) (h.info position) := by
  have hcaught : h.caughtIndex < 65536 := by
    rcases hm.handlers h hh with ⟨-, hzero⟩ | hat
    · rw [hzero]
      decide
    · exact hq.at?_lt hf hat
  have hcut (v : Nat) : (number 2).Reads (bytes16 v) (v % 65536) := reads_cut v
  exact reads_bind (hcut _) (reads_bind (hcut _) (reads_bind (hcut _)
    (reads_map (reads_number2 hcaught))))

include ht

theorem Method.reads_codeBytes {m : Method} {major : Int} {position : LabelId → Nat}
    {as : List Attribute} (hm : m.Indexed q) (hsize : m.code.size ≤ limit)
    (has : Forall₂ (Part.PlainIn q) (m.tables major) as)
    (hfits : (Content.code m major position).Fits) :
    ∃ c, codeInfo.Reads (m.codeBytes position as) c ∧ m.CodeStands t major position c := by
  have hlimit : m.code.size < 0x100000000 := by
    have : m.code.size ≤ 65535 := hsize
    omega
  have hrows : (counted handlerInfo).Reads
      (bytes16 m.handlers.size ++ m.handlers.toList.flatMap (Handler.bytes position))
      (m.handlers.toList.map (Handler.info position)) := by
    have hcount : m.handlers.toList.length < 65536 := by
      simpa using hfits.handlers m major position rfl
    have hrow : ∀ h ∈ m.handlers.toList,
        handlerInfo.Reads (Handler.bytes position h) (Handler.info position h) :=
      fun h hh => Handler.reads hq hf hm (Array.mem_toList_iff.1 hh)
    have hread := reads_counted hcount hrow
    rwa [Array.length_toList] at hread
  have hattributes : ∀ a ∈ as, a.Fits := by
    intro a ha
    obtain ⟨part, -, hname, -, hlength⟩ := exists_of_forall₂ has ha
    refine ⟨hq.at?_lt hf hname, hlength, ?_⟩
    have hle : a.bytes.length ≤ (as.flatMap Attribute.bytes).length := by
      obtain ⟨xs, ys, rfl⟩ := append_of_mem ha
      rw [flatMap_append, flatMap_cons, length_append, length_append]
      omega
    have htotal := hfits.length
    rw [Attribute.length_bytes, length_plainIn has] at hle
    rw [Content.length] at htotal
    omega
  have hcount : as.length < 65536 := by
    rw [← has.length_eq]
    exact hfits.tables m major position rfl
  refine ⟨⟨(m.maxStack % 65536).toNat, (m.maxLocals % 65536).toNat, m.code.toList,
    m.handlers.toList.map (Handler.info position), as.map Attribute.info⟩, ?_, ?_⟩
  · exact reads_bind (reads_cut _) <| reads_bind (reads_cut _) <|
      reads_bind (reads_number4 hlimit) <| reads_bind (reads_bytes rfl) <| reads_bind hrows <|
      reads_map (Attribute.reads_all rfl hcount hattributes)
  · refine ⟨by dsimp only; omega, by dsimp only; omega, rfl, ?_, ?_⟩
    · rw [forall₂_map_right_iff]
      refine forall₂_same.2 fun h hh => ⟨rfl, rfl, rfl, ?_⟩
      exact (hm.handlers h (Array.mem_toList_iff.1 hh)).imp_right (ht.means _ _)
    · rw [forall₂_map_right_iff]
      exact has.imp fun part a ha => ⟨ht.means _ _ ha.1, ha.2.1⟩

theorem Part.Made.stands {part : Part} {a : Attribute} (h : part.Made q a)
    (hfits : part.content.Fits)
    (hcode : ∀ m major position, part.content = .code m major position → m.Indexed q) :
    a.Fits ∧ part.Stands t a.info := by
  obtain ⟨hname, hcontent, hlength⟩ := h
  refine ⟨⟨hq.at?_lt hf hname, hlength, hcontent.length ▸ hfits.length⟩, ht.means _ _ hname, ?_⟩
  cases hc : part.content with
  | bytes bs =>
    rw [hc] at hcontent
    exact hcontent
  | text x =>
    rw [hc] at hcontent
    obtain ⟨i, hb, hi⟩ := hcontent
    exact ⟨i, hb, ht.means _ _ hi⟩
  | code m major position =>
    rw [hc] at hcontent hfits
    obtain ⟨hsize, as, hb, has⟩ := hcontent
    obtain ⟨c, hread, hstands⟩ :=
      Method.reads_codeBytes hq hf ht (hcode m major position hc) hsize has hfits
    refine ⟨c, ?_, hstands⟩
    have hall := hread []
    rwa [append_nil, ← hb] at hall

end

/-! ## Members and classes -/

namespace Access

/-- A number stands for flags in a class file: it has the low sixteen of them, except that the mark
of synthetic elements is left out where an attribute is asked for in its place. -/
def Masked (f : Flags) (n : Nat) : Prop :=
  n < 65536 ∧ ∀ k < 16, n.testBit k = (f.toNat.testBit k && !(k == 12 && f.toNat.testBit 18))

theorem has_of_twoPow (f : Flags) {mask : Flags} {k : Nat} (hmask : mask.toBitVec = .twoPow 32 k)
    (hk : k < 32) : f.has mask = f.toNat.testBit k := by
  have hbit : f.toNat.testBit k = f.toBitVec.getLsbD k := rfl
  have hand : (f &&& mask).toBitVec = f.toBitVec &&& BitVec.twoPow 32 k := by rw [← hmask]; rfl
  rw [Flags.has, hbit, Bool.eq_iff_iff, bne_iff_ne, ne_eq, ← UInt32.toBitVec_inj, hand,
    BitVec.and_twoPow]
  cases f.toBitVec.getLsbD k
  · simp
  · have hone : BitVec.twoPow 32 k ≠ 0#32 := fun h => by
      have hlsb := congrArg (BitVec.getLsbD · k) h
      simp [hk] at hlsb
    simpa using hone

theorem masked_written (f : Flags) : Masked f (written f) := by
  refine ⟨Nat.mod_lt _ (by decide), fun k hk => ?_⟩
  have hlow : ∀ k < 16, ∀ b : Bool, (deprecated_ ||| syntheticAttribute ||| constructor
      ||| (if b then synthetic else 0)).toBitVec.getLsbD k = (k == 12 && b) := by decide
  have hnot (g : Flags) : (~~~g).toBitVec.getLsbD k = !g.toBitVec.getLsbD k := by
    have hk' : k < 32 := by omega
    simp [hk']
  have hpow : (65536 : Nat) = 2 ^ 16 := rfl
  have hattribute : f.toNat.testBit 18 = f.has syntheticAttribute :=
    (has_of_twoPow f rfl (by decide)).symm
  rw [written, hattribute, ← hlow k hk, hpow, Nat.testBit_mod_two_pow,
    decide_eq_true hk, Bool.true_and, ← hnot]
  exact BitVec.getLsbD_and

end Access

/-- Attributes whose number and contents fit their fields. -/
structure PartsFit (parts : List Part) : Prop where
  count : parts.length < 65536
  contents : ∀ part ∈ parts, part.content.Fits

instance (parts : List Part) : Decidable (PartsFit parts) :=
  decidable_of_iff (parts.length < 65536 ∧ ∀ part ∈ parts, part.content.Fits)
    ⟨fun h => ⟨h.1, h.2⟩, fun h => ⟨h.count, h.contents⟩⟩

/-- A member of a class file with flags, a name, a descriptor and attributes. -/
structure MemberStands (t : Table) (access : Flags) (name desc : Nat) (parts : List Part)
    (m : MemberInfo) : Prop where
  access : Access.Masked access m.access
  name : m.name = name
  desc : m.desc = desc
  attributes : Forall₂ (Part.Stands t) parts m.attributes

namespace ClassBody

/-- The lists of a class fit the fields that hold their lengths. -/
structure Fits (c : ClassBody) (s : Session) (p : Pool) : Prop where
  interfaces : c.interfaces.length < 65536
  fieldCount : c.fields.size < 65536
  fields : ∀ f ∈ c.fields, PartsFit (f.parts s.major c.store)
  methodCount : c.written.size < 65536
  methods : ∀ id ∈ c.written, PartsFit ((c.methodOf id).parts s.major (positionIn s) c.store)
  attributes : PartsFit (c.parts p s.major)

instance (c : ClassBody) (s : Session) (p : Pool) : Decidable (c.Fits s p) :=
  decidable_of_iff (c.interfaces.length < 65536 ∧ c.fields.size < 65536 ∧
      (∀ f ∈ c.fields, PartsFit (f.parts s.major c.store)) ∧ c.written.size < 65536 ∧
      (∀ id ∈ c.written, PartsFit ((c.methodOf id).parts s.major (positionIn s) c.store)) ∧
      PartsFit (c.parts p s.major))
    ⟨fun ⟨hi, hf, hfs, hm, hms, ha⟩ => ⟨hi, hf, hfs, hm, hms, ha⟩,
      fun h => ⟨h.interfaces, h.fieldCount, h.fields, h.methodCount, h.methods, h.attributes⟩⟩

/-- The indices of a class refer to entries of the pool of the right kind. -/
structure Indexed (c : ClassBody) (p : Pool) : Prop where
  thisIndex : p.ClassAt c.thisIndex
  superIndex : c.superIndex = 0 ∨ p.ClassAt c.superIndex
  interfaces : ∀ i ∈ c.interfaces, p.ClassAt i
  fields : ∀ f ∈ c.fields, p.TextAt f.nameIndex ∧ p.TextAt f.descIndex
  methods : ∀ id ∈ c.written, p.TextAt (c.methodOf id).nameIndex ∧
    p.TextAt (c.methodOf id).descIndex ∧ (c.methodOf id).Indexed p

/-- A class file is that of a class. -/
structure Stands (c : ClassBody) (s : Session) (p : Pool) (f : ClassInfo) : Prop where
  minor : (f.minor : Int) = s.version / 65536 % 65536
  major : (f.major : Int) = s.version % 65536
  pool : Shows f.pool p
  access : Access.Masked c.access f.access
  thisIndex : f.thisIndex = c.thisIndex
  superIndex : f.superIndex = c.superIndex
  interfaces : f.interfaces = c.interfaces
  fields : Forall₂ (fun field m => MemberStands f.pool field.access field.nameIndex
    field.descIndex (field.parts s.major c.store) m) c.fields.toList f.fields
  methods : Forall₂ (fun id m => MemberStands f.pool (c.methodOf id).access
    (c.methodOf id).nameIndex (c.methodOf id).descIndex
    ((c.methodOf id).parts s.major (positionIn s) c.store) m) c.written.toList f.methods
  attributes : Forall₂ (Part.Stands f.pool) (c.parts p s.major) f.attributes

end ClassBody

section

variable {q : Pool} {t : Table} (hq : q.Wf) (hf : q.failure = none) (ht : Shows t q)

include hq hf ht

theorem stands_parts {parts : List Part} {as : List Attribute}
    (h : Forall₂ (Part.Made q) parts as) (hfits : PartsFit parts)
    (hcode : ∀ part ∈ parts, ∀ m major position, part.content = .code m major position →
      m.Indexed q) :
    as.length < 65536 ∧ (∀ a ∈ as, a.Fits) ∧
      Forall₂ (Part.Stands t) parts (as.map Attribute.info) := by
  have hone : Forall₂ (fun part a => a.Fits ∧ part.Stands t a.info) parts as :=
    forall₂_mem h fun part hpart a hmade =>
      hmade.stands hq hf ht (hfits.contents part hpart) (hcode part hpart)
  refine ⟨h.length_eq ▸ hfits.count, fun a ha => ?_, ?_⟩
  · obtain ⟨part, -, hfit, -⟩ := exists_of_forall₂ hone ha
    exact hfit
  · rw [forall₂_map_right_iff]
    exact hone.imp fun _ _ h => h.2

theorem Member.Made.stands {access : Flags} {name desc : Nat} {parts : List Part} {member : Member}
    (h : member.Made q access name desc parts) (hname : q.TextAt name) (hdesc : q.TextAt desc)
    (hfits : PartsFit parts)
    (hcode : ∀ part ∈ parts, ∀ m major position, part.content = .code m major position →
      m.Indexed q) :
    member.Fits ∧ MemberStands t access name desc parts member.info := by
  obtain ⟨hcount, hattributes, hparts⟩ := stands_parts hq hf ht h.attributes hfits hcode
  obtain ⟨_, hname⟩ := hname
  obtain ⟨_, hdesc⟩ := hdesc
  have haccess : Access.Masked access member.access := h.access ▸ Access.masked_written access
  refine ⟨⟨haccess.1, ?_, ?_, h.count, hcount, hattributes⟩, ⟨haccess, h.name, h.desc, hparts⟩⟩
  · exact h.name ▸ hq.at?_lt hf hname
  · exact h.desc ▸ hq.at?_lt hf hdesc

end

/-! ## Where code stands -/

namespace Part

def IsCode (part : Part) : Prop := ∃ m major position, part.content = .code m major position

theorem content_of_mem_when {wanted : Bool} {name : String} {content : Content} {part : Part}
    (h : part ∈ when wanted name content) : part.content = content := by
  unfold when at h
  split at h
  · rw [mem_singleton.1 h]
  · cases h

theorem not_isCode_when {wanted : Bool} {name : String} {content : Content}
    (hc : ∀ m major position, content ≠ .code m major position) :
    ∀ part ∈ when wanted name content, ¬ part.IsCode := by
  rintro part h ⟨m, major, position, hcode⟩
  rw [content_of_mem_when h] at hcode
  exact hc m major position hcode

theorem not_isCode_ofRaw (as : List RawAttribute) : ∀ part ∈ ofRaw as, ¬ part.IsCode := by
  rintro part h ⟨m, major, position, hcode⟩
  obtain ⟨a, -, rfl⟩ := mem_map.1 h
  cases hcode

theorem not_isCode_ofAnnotationLists (store : AnnotationStore) (l : AnnotationLists) :
    ∀ part ∈ ofAnnotationLists store l, ¬ part.IsCode := by
  intro part h
  simp only [ofAnnotationLists, mem_flatten, mem_cons, not_mem_nil, or_false] at h
  obtain ⟨parts, rfl | rfl | rfl | rfl, h⟩ := h <;>
  exact not_isCode_when (by simp) part h

theorem not_isCode_ofParameters (store : AnnotationStore) (name : String) (hidden : Nat)
    (lists : Option (Array (Array AnnotationId))) :
    ∀ part ∈ ofParameters store name hidden lists, ¬ part.IsCode := by
  intro part h
  cases lists with
  | none => cases h
  | some lists => exact not_isCode_when (by simp) part h

theorem not_isCode_field (f : Field) (major : Int) (store : AnnotationStore) :
    ∀ part ∈ f.parts major store, ¬ part.IsCode := by
  intro part h
  simp only [Field.parts, mem_flatten, mem_cons, not_mem_nil, or_false] at h
  obtain ⟨parts, rfl | rfl | rfl | rfl | rfl | rfl, h⟩ := h
  case inr.inr.inr.inr.inl => exact not_isCode_ofAnnotationLists _ _ part h
  case inr.inr.inr.inr.inr => exact not_isCode_ofRaw _ part h
  all_goals exact not_isCode_when (by simp) part h

theorem not_isCode_class (c : ClassBody) (p : Pool) (major : Int) :
    ∀ part ∈ c.parts p major, ¬ part.IsCode := by
  intro part h
  simp only [ClassBody.parts, mem_flatten, mem_cons, not_mem_nil, or_false] at h
  obtain ⟨parts, rfl | rfl | rfl | rfl | rfl | rfl | rfl | rfl | rfl | rfl, h⟩ := h
  case inr.inr.inr.inr.inr.inr.inr.inr.inl => exact not_isCode_ofAnnotationLists _ _ part h
  case inr.inr.inr.inr.inr.inr.inr.inr.inr => exact not_isCode_ofRaw _ part h
  all_goals exact not_isCode_when (by simp) part h

theorem code_of_mem_method {m m' : Method} {major major' : Int} {position position' : LabelId → Nat}
    {store : AnnotationStore} {part : Part} (h : part ∈ m.parts major position store)
    (hcode : part.content = .code m' major' position') : m' = m := by
  simp only [Method.parts, mem_flatten, mem_cons, not_mem_nil, or_false] at h
  obtain ⟨parts, rfl | rfl | rfl | rfl | rfl | rfl | rfl | rfl | rfl | rfl | rfl, h⟩ := h
  case inl =>
    rw [content_of_mem_when h] at hcode
    cases hcode
    rfl
  all_goals exfalso
  case inr.inr.inr.inr.inr.inr.inr.inl =>
    exact not_isCode_ofAnnotationLists _ _ part h ⟨_, _, _, hcode⟩
  case inr.inr.inr.inr.inr.inr.inr.inr.inl =>
    exact not_isCode_ofParameters _ _ _ _ part h ⟨_, _, _, hcode⟩
  case inr.inr.inr.inr.inr.inr.inr.inr.inr.inl =>
    exact not_isCode_ofParameters _ _ _ _ part h ⟨_, _, _, hcode⟩
  case inr.inr.inr.inr.inr.inr.inr.inr.inr.inr =>
    exact not_isCode_ofRaw _ part h ⟨_, _, _, hcode⟩
  all_goals exact not_isCode_when (by simp) part h ⟨_, _, _, hcode⟩

end Part

/-! ## The bytes of a class -/

namespace ClassM

/-- The bytes of a class that fits are read to the end, as the class that was recorded. -/
theorem Serialized.reads {x y z : ClassBody.State} {out : Buffer} {n : Int} {file : ClassFile}
    (h : Serialized x out y z n file) (hx : x.2.Prepared x.1.1) (hwf : x.1.1.Wf)
    (hindexed : z.2.Indexed z.1.1) (hfits : z.2.Fits z.1.2 z.1.1) :
    ∃ f, classInfo.run out.toList = some (f, []) ∧ z.2.Stands z.1.2 z.1.1 f := by
  have hq := (h.enters hx hwf).wf
  have hmade := ClassBody.madeInto_toClassFile (h.size_le hx) (h.hidesWithin hx) hq h.unfailed
    h.made
  have hfail := h.unfailed
  have hlong := h.tooLong
  rw [h.written]
  obtain ⟨t, hpool, hlength, hmeans⟩ := hq.exists_reads_pool hfail hlong
  have ht : Shows t z.1.1 := ⟨hlength, hmeans⟩
  have hfields := forall₂_mem hmade.fields fun f hf member hm =>
    hm.stands hq hfail ht (hindexed.fields f (Array.mem_toList_iff.1 hf)).1
      (hindexed.fields f (Array.mem_toList_iff.1 hf)).2
      (hfits.fields f (Array.mem_toList_iff.1 hf)) fun part hpart m major position hcode =>
        absurd ⟨m, major, position, hcode⟩ (Part.not_isCode_field f _ _ part hpart)
  have hmethods := forall₂_mem hmade.methods fun id hid member hm =>
    hm.stands hq hfail ht (hindexed.methods id (Array.mem_toList_iff.1 hid)).1
      (hindexed.methods id (Array.mem_toList_iff.1 hid)).2.1
      (hfits.methods id (Array.mem_toList_iff.1 hid)) fun part hpart m major position hcode => by
        rw [Part.code_of_mem_method hpart hcode]
        exact (hindexed.methods id (Array.mem_toList_iff.1 hid)).2.2
  obtain ⟨hcount, hattributes, hown⟩ := stands_parts hq hfail ht hmade.attributes hfits.attributes
    fun part hpart m major position hcode =>
      absurd ⟨m, major, position, hcode⟩ (Part.not_isCode_class _ _ _ part hpart)
  have hclass {i : Nat} (hi : z.1.1.ClassAt i) : i < 65536 := by
    obtain ⟨_, hi⟩ := hi
    exact hq.at?_lt hfail hi
  have haccess : Access.Masked z.2.access file.access := hmade.access ▸ Access.masked_written _
  have hfile : file.Fits := {
    access := haccess.1
    thisIndex := hmade.thisIndex ▸ hclass hindexed.thisIndex
    superIndex := by
      rw [hmade.superIndex]
      rcases hindexed.superIndex with hzero | hat
      · rw [hzero]
        decide
      · exact hclass hat
    interfaceCount := hmade.interfaces ▸ hfits.interfaces
    interfaces := fun i hi => hclass (hindexed.interfaces i (hmade.interfaces ▸ hi))
    fieldCount := by
      rw [← hmade.fields.length_eq, Array.length_toList]
      exact hfits.fieldCount
    fields := fun member hm => by
      obtain ⟨f, -, hfit, -⟩ := exists_of_forall₂ hfields hm
      exact hfit
    methodCount := by
      rw [← hmade.methods.length_eq, Array.length_toList]
      exact hfits.methodCount
    methods := fun member hm => by
      obtain ⟨f, -, hfit, -⟩ := exists_of_forall₂ hmethods hm
      exact hfit
    attributeCount := hmade.attributeCount
    attributeLimit := hcount
    attributes := hattributes }
  rw [← hmade.poolCount, ← hmade.poolBytes] at hpool
  have hread := ClassFile.reads_write n hfile hpool []
  rw [append_nil] at hread
  refine ⟨_, hread, ?_⟩
  exact {
    minor := by
      simp only [ClassFile.info, hmade.version]
      omega
    major := by
      simp only [ClassFile.info, hmade.version]
      omega
    pool := ht
    access := haccess
    thisIndex := hmade.thisIndex
    superIndex := hmade.superIndex
    interfaces := hmade.interfaces
    fields := forall₂_map_right_iff.2 (hfields.imp fun _ _ h => h.2)
    methods := forall₂_map_right_iff.2 (hmethods.imp fun _ _ h => h.2)
    attributes := hown }

end ClassM

end ClassAssembler
