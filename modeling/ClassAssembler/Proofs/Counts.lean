import Mathlib
import ClassAssembler.Proofs.Calls

/-!
# The counts in a class file

A class file is made of lists behind their numbers of entries, and entries have such lists inside.
A `Tree` is a class file that is taken apart this far; `Tree.Exact` says that every number that is
written is the number of the entries behind it.  `ClassBody.Layout.tree` is the tree of a class.

The result is `Call.counts_toBytes`: whatever was called before, the bytes of a class are those of
its tree.  Only the lists whose entries have constants of their own are limited, by the size of the
pool; every count is right exactly if all other lists are short enough.
-/

namespace ClassAssembler

open Buffer List Assembler

/-! ## Trees -/

inductive ListKind where
  | interfaces | fields | methods | attributes
  | exceptions | handlers | lines | locals | localTypes | frames | parameters
  | annotations | parameterAnnotations
  | innerClasses | bootstraps | arguments

namespace ListKind

def count : ListKind → Nat → List UInt8
  | parameters, n | parameterAnnotations, n => [low8 n]
  | _, n => bytes16 n

def limit : ListKind → Nat
  | parameters | parameterAnnotations => 256
  | _ => 65536

def IsPooled : ListKind → Prop
  | innerClasses | bootstraps => True
  | _ => False

theorem unsigned_count (k : ListKind) (n : Nat) : Machine.unsigned (k.count n) = n % k.limit := by
  have hbyte : Machine.unsigned [low8 n] = n % 256 := by
    have := Machine.unsigned_low8 n
    omega
  have hshort : Machine.unsigned (bytes16 n) = n % 65536 := by
    have := Machine.unsigned_bytes16 n
    omega
  cases k with
  | parameters | parameterAnnotations => exact hbyte
  | _ => exact hshort

theorem unsigned_count_eq_iff (k : ListKind) (n : Nat) :
    Machine.unsigned (k.count n) = n ↔ n < k.limit := by
  have hpos : 0 < k.limit := by cases k <;> decide
  rw [unsigned_count]
  exact ⟨fun h => h ▸ Nat.mod_lt n hpos, Nat.mod_eq_of_lt⟩

end ListKind

/-- Bytes that are taken apart into the lists in them. -/
inductive Tree where
  | bytes (bs : List UInt8)
  | row (ts : List Tree)
  | list (kind : ListKind) (entries : List Tree)

namespace Tree

variable {bs : List UInt8} {n size : Nat}

mutual

def spell : Tree → List UInt8
  | bytes bs => bs
  | row ts => spellAll ts
  | list kind entries => kind.count entries.length ++ spellAll entries

def spellAll : List Tree → List UInt8
  | [] => []
  | t :: ts => t.spell ++ spellAll ts

end

mutual

def lists : Tree → List (ListKind × Nat)
  | bytes _ => []
  | row ts => listsOfAll ts
  | list kind entries => (kind, entries.length) :: listsOfAll entries

def listsOfAll : List Tree → List (ListKind × Nat)
  | [] => []
  | t :: ts => t.lists ++ listsOfAll ts

end

theorem spellAll_eq (ts : List Tree) : spellAll ts = ts.flatMap spell := by
  induction ts with
  | nil => rfl
  | cons t ts ih => rw [spellAll, ih, flatMap_cons]

theorem mem_listsOfAll {ts : List Tree} {e : ListKind × Nat} :
    e ∈ listsOfAll ts ↔ ∃ t ∈ ts, e ∈ t.lists := by
  induction ts with
  | nil => simp [listsOfAll]
  | cons t ts ih => simp [listsOfAll, ih]

theorem spell_row (ts : List Tree) : (row ts).spell = ts.flatMap spell := by
  rw [spell, spellAll_eq]

theorem spell_list (kind : ListKind) (entries : List Tree) :
    (list kind entries).spell = kind.count entries.length ++ entries.flatMap spell := by
  rw [spell, spellAll_eq]

def Within (P : ListKind → Nat → Prop) (t : Tree) : Prop := ∀ e ∈ t.lists, P e.1 e.2

section

variable {P Q : ListKind → Nat → Prop} {t : Tree}

theorem within_bytes (bs : List UInt8) : (bytes bs).Within P := nofun

theorem within_nil : (row []).Within P := nofun

theorem Within.cons {ts : List Tree} (h : t.Within P) (h' : (row ts).Within P) :
    (row (t :: ts)).Within P :=
  fun e he => (mem_append.1 he).elim (h e) (h' e)

theorem within_list {kind : ListKind} {entries : List Tree} (hkind : P kind entries.length)
    (h : ∀ t ∈ entries, t.Within P) : (list kind entries).Within P := by
  intro e he
  rcases mem_cons.1 he with rfl | he
  · exact hkind
  · obtain ⟨t, ht, he⟩ := mem_listsOfAll.1 he
    exact h t ht e he

theorem within_rows {α : Type} {kind : ListKind} {as : List α} {enc : α → List UInt8}
    (hkind : P kind as.length) : (list kind (as.map fun a => bytes (enc a))).Within P := by
  refine within_list (by rwa [length_map]) fun t ht => ?_
  obtain ⟨a, -, rfl⟩ := mem_map.1 ht
  exact within_bytes _

theorem Within.imp (h : t.Within P) (hPQ : ∀ k n, P k n → Q k n) : t.Within Q :=
  fun e he => hPQ _ _ (h e he)

end

def Pooled (t : Tree) : Prop := t.Within fun k n => k.IsPooled → n < k.limit

/-- Every number that is written is the number of the entries behind it. -/
def Exact (t : Tree) : Prop := t.Within fun k n => Machine.unsigned (k.count n) = n

theorem exact_iff {t : Tree} (h : t.Pooled) :
    t.Exact ↔ t.Within fun k n => k.IsPooled ∨ n < k.limit := by
  constructor
  · exact fun hexact => hexact.imp fun k n hn => .inr ((k.unsigned_count_eq_iff n).1 hn)
  · intro hothers e he
    exact (e.1.unsigned_count_eq_iff e.2).2 ((hothers e he).elim (h e he) id)

theorem spell_list_of {α : Type} {enc : α → List UInt8} {as : List α} {ts : List Tree}
    (h : Forall₂ (fun a t => enc a = t.spell) as ts) (kind : ListKind) :
    (list kind ts).spell = kind.count as.length ++ as.flatMap enc := by
  rw [spell_list, h.length_eq]
  congr 1
  induction h with
  | nil => rfl
  | cons ha _ ih => rw [flatMap_cons, flatMap_cons, ← ha, ih]

theorem spell_rows {α : Type} (kind : ListKind) (enc : α → List UInt8) (as : List α) :
    (list kind (as.map fun a => bytes (enc a))).spell = kind.count as.length ++ as.flatMap enc := by
  refine spell_list_of ?_ kind
  exact forall₂_map_right_iff.2 (forall₂_same.2 fun a _ => rfl)

def slices (size : Nat) : Nat → List UInt8 → List Tree
  | 0, _ => []
  | n + 1, bs => bytes (bs.take size) :: slices size n (bs.drop size)

theorem length_slices (size n : Nat) (bs : List UInt8) : (slices size n bs).length = n := by
  induction n generalizing bs with
  | zero => rfl
  | succ n ih => rw [slices, length_cons, ih]

theorem flatMap_slices (h : bs.length = size * n) : (slices size n bs).flatMap spell = bs := by
  induction n generalizing bs with
  | zero => exact (eq_nil_of_length_eq_zero h).symm
  | succ n ih =>
    have hrest : (bs.drop size).length = size * n := by
      rw [length_drop, h, Nat.mul_succ, Nat.add_sub_cancel]
    rw [slices, flatMap_cons, ih hrest]
    exact take_append_drop size bs

theorem spell_slices (h : bs.length = size * n) (kind : ListKind) :
    (list kind (slices size n bs)).spell = kind.count n ++ bs := by
  rw [spell_list, length_slices, flatMap_slices h]

theorem within_slices {P : ListKind → Nat → Prop} {kind : ListKind} (hkind : P kind n) :
    (list kind (slices size n bs)).Within P := by
  refine within_list (by rwa [length_slices]) ?_
  clear hkind
  induction n generalizing bs with
  | zero => exact nofun
  | succ n ih =>
    rintro t (_ | ⟨_, ht⟩)
    · exact within_bytes _
    · exact ih t ht

end Tree

/-! ## Attributes -/

/-- An attribute by its name and a tree of what it holds. -/
structure Limb where
  name : Text
  content : Tree

namespace Limb

def tree (p : Pool) (l : Limb) : Tree :=
  .row [.bytes (bytes16 (p.indexOf (.utf8 l.name))), .bytes (bytes32 l.content.spell.length),
    l.content]

def trees (p : Pool) (ls : List Limb) : Tree := .list .attributes (ls.map (tree p))

def when (wanted : Bool) (name : String) (content : Tree) : List Limb :=
  if wanted then [⟨Text.ofString name, content⟩] else []

def ofRaw (as : List RawAttribute) : List Limb := as.map fun a => ⟨a.name, .bytes a.content⟩

def annotations (store : AnnotationStore) (ids : Array AnnotationId) : Tree :=
  .list .annotations (ids.toList.map fun id => .bytes (store.bytesOf id).toList)

def ofAnnotationLists (store : AnnotationStore) (l : AnnotationLists) : List Limb :=
  List.flatten [
    when (!l.visible.isEmpty) "RuntimeVisibleAnnotations" (annotations store l.visible),
    when (!l.invisible.isEmpty) "RuntimeInvisibleAnnotations" (annotations store l.invisible),
    when (!l.visibleTypes.isEmpty) "RuntimeVisibleTypeAnnotations"
        (annotations store l.visibleTypes),
    when (!l.invisibleTypes.isEmpty) "RuntimeInvisibleTypeAnnotations"
        (annotations store l.invisibleTypes)]

/-- The annotations of the parameters of a method, without the hidden ones in front. -/
def ofParameters (store : AnnotationStore) (name : String) (hidden : Nat)
    (lists : Option (Array (Array AnnotationId))) : List Limb :=
  match lists with
  | none => []
  | some lists =>
    when true name (.list .parameterAnnotations
      ((lists.toList.drop hidden).map (annotations store)))

def Of (p : Pool) (part : Part) (l : Limb) : Prop :=
  l.name = part.name ∧ ∀ b, part.content.Made p b → b.toList = l.content.spell

section

variable {p : Pool} {parts : List Part} {ls : List Limb} {as : List Attribute} {counted : Prop}

variable {wanted : Bool} {name : String}

theorem of_when {content : Content} {t : Tree} (h : wanted = true → ∀ b, content.Made p b →
    b.toList = t.spell) : Forall₂ (Of p) (Part.when wanted name content) (when wanted name t) := by
  unfold Part.when when
  split
  next hwanted => exact .cons ⟨rfl, h hwanted⟩ .nil
  next => exact .nil

theorem of_bytes {bs : List UInt8} {t : Tree} (h : wanted = true → t.spell = bs) :
    Forall₂ (Of p) (Part.when wanted name (.bytes bs)) (when wanted name t) :=
  of_when fun hwanted _ hb => Eq.trans hb (h hwanted).symm

theorem of_plain {bs : List UInt8} :
    Forall₂ (Of p) (Part.when wanted name (.bytes bs)) (when wanted name (.bytes bs)) :=
  of_bytes fun _ => rfl

theorem of_text {x : Text} (hwf : p.Wf { counted }) :
    Forall₂ (Of p) (Part.when wanted name (.text x))
      (when wanted name (.bytes (bytes16 (p.indexOf (.utf8 x))))) := by
  refine of_when fun _ b ⟨i, hb, hi⟩ => ?_
  rw [hb, hwf.indexOf_eq hi]
  rfl

theorem of_raw (as : List RawAttribute) : Forall₂ (Of p) (Part.ofRaw as) (ofRaw as) := by
  refine forall₂_map_left_iff.2 (forall₂_map_right_iff.2 ?_)
  exact forall₂_same.2 fun a _ => ⟨rfl, fun _ hb => hb⟩

theorem spell_annotations (store : AnnotationStore) (ids : Array AnnotationId) :
    (annotations store ids).spell = Part.annotationBytes store ids :=
  Tree.spell_rows .annotations _ _

theorem of_annotationLists (store : AnnotationStore) (l : AnnotationLists) :
    Forall₂ (Of p) (Part.ofAnnotationLists store l) (ofAnnotationLists store l) :=
  rel_flatten <| .cons (of_bytes fun _ => spell_annotations _ _) <|
    .cons (of_bytes fun _ => spell_annotations _ _) <|
    .cons (of_bytes fun _ => spell_annotations _ _) <|
    .cons (of_bytes fun _ => spell_annotations _ _) .nil

theorem of_parameters (store : AnnotationStore) (name : String) (hidden : Nat)
    (lists : Option (Array (Array AnnotationId))) :
    Forall₂ (Of p) (Part.ofParameters store name hidden lists)
      (ofParameters store name hidden lists) := by
  cases lists with
  | none => exact .nil
  | some lists =>
    refine of_bytes fun _ => Tree.spell_list_of ?_ .parameterAnnotations
    refine forall₂_map_right_iff.2 (forall₂_same.2 fun ids _ => ?_)
    exact (spell_annotations store ids).symm

theorem Of.bytes_eq {part : Part} {l : Limb} {a : Attribute} (h : l.Of p part)
    (hwf : p.Wf { counted }) (hmade : part.Made p a) : a.bytes = (l.tree p).spell := by
  obtain ⟨hname, hcontent, hlength⟩ := hmade
  have hbytes := h.2 _ hcontent
  have hsize : l.content.spell.length = a.content.size := by
    rw [← hbytes, length_toList]
  rw [tree, Tree.spell_row, h.1, hwf.indexOf_eq hname, hsize]
  simp [Attribute.bytes, Tree.spell, hbytes, hlength]

theorem spell_trees (hwf : p.Wf { counted }) (hof : Forall₂ (Of p) parts ls)
    (hmade : Forall₂ (Part.Made p) parts as) :
    (trees p ls).spell = bytes16 as.length ++ as.flatMap Attribute.bytes := by
  refine Tree.spell_list_of (forall₂_map_right_iff.2 ?_) .attributes
  induction hof generalizing as with
  | nil =>
    cases hmade
    exact .nil
  | cons h _ ih =>
    cases hmade with
    | cons ha has => exact .cons (h.bytes_eq hwf ha) (ih has)

end

end Limb

/-! ## Members -/

def Member.tree (p : Pool) (access : Flags) (name desc : Nat) (ls : List Limb) : Tree :=
  .row [.bytes (bytes16 (Access.written access)), .bytes (bytes16 name), .bytes (bytes16 desc),
    Limb.trees p ls]

theorem Member.Made.bytes_eq {p : Pool} {counted : Prop} {access : Flags} {name desc : Nat}
    {parts : List Part} {ls : List Limb} {member : Member}
    (h : member.Made p access name desc parts) (hwf : p.Wf { counted })
    (hof : Forall₂ (Limb.Of p) parts ls) :
    member.bytes = (Member.tree p access name desc ls).spell := by
  rw [Member.tree, Tree.spell_row, Member.bytes, h.access, h.name, h.desc, h.count]
  simp only [flatMap_cons, flatMap_nil, append_nil, Tree.spell,
    Limb.spell_trees hwf hof h.attributes]

namespace Field

def limbs (f : Field) (p : Pool) (major : Int) (store : AnnotationStore) : List Limb :=
  List.flatten [
    Limb.when (f.valueIndex != 0) "ConstantValue" (.bytes (bytes16 f.valueIndex)),
    Limb.when (Access.wantsSyntheticAttribute f.access major) "Synthetic" (.bytes []),
    Limb.when (f.access.has Access.deprecated_) "Deprecated" (.bytes []),
    Limb.when (!f.signature.isEmpty) "Signature" (.bytes (bytes16 (p.indexOf (.utf8 f.signature)))),
    Limb.ofAnnotationLists store f.annotations,
    Limb.ofRaw f.attributes.toList]

theorem of_limbs {p : Pool} {counted : Prop} (hwf : p.Wf { counted }) (f : Field) (major : Int)
    (store : AnnotationStore) :
    Forall₂ (Limb.Of p) (f.parts major store) (f.limbs p major store) :=
  rel_flatten <| .cons Limb.of_plain <| .cons Limb.of_plain <| .cons Limb.of_plain <|
    .cons (Limb.of_text hwf) <| .cons (Limb.of_annotationLists _ _) <| .cons (Limb.of_raw _) .nil

end Field

namespace Method

structure Frames (m : Method) (rows : List (List UInt8)) : Prop where
  bytes : (m.stackMap.getD {}).toList = rows.flatten
  count : m.frameCount = rows.length
  forms : ∀ row ∈ rows, FrameRow row

def tableLimbs (m : Method) (frames : List (List UInt8)) (major : Int) : List Limb :=
  List.flatten [
    Limb.when (!m.localRows.isEmpty) "LocalVariableTable"
        (.list .locals (m.localRows.toList.map fun r => .bytes r.bytes)),
    Limb.when (!m.localTypeRows.isEmpty) "LocalVariableTypeTable"
        (.list .localTypes (m.localTypeRows.toList.map fun r => .bytes r.bytes)),
    Limb.when (!m.lineRows.isEmpty) "LineNumberTable"
        (.list .lines (m.lineRows.toList.map fun r => .bytes (bytes16 r.offset ++ bytes16 r.line))),
    Limb.when m.stackMap.isSome (if 50 ≤ major then "StackMapTable" else "StackMap")
        (.list .frames (frames.map fun row => .bytes row)),
    Limb.ofRaw m.codeAttributes.toList]

def codeTree (m : Method) (p : Pool) (frames : List (List UInt8)) (major : Int)
    (position : LabelId → Nat) : Tree :=
  .row [.bytes (bytes16 m.maxStack), .bytes (bytes16 m.maxLocals), .bytes (bytes32 m.code.size),
    .bytes m.code.toList,
    .list .handlers (m.handlers.toList.map fun h => .bytes (h.bytes position)),
    Limb.trees p (m.tableLimbs frames major)]

def limbs (m : Method) (p : Pool) (frames : List (List UInt8)) (major : Int)
    (position : LabelId → Nat) (store : AnnotationStore) : List Limb :=
  List.flatten [
    Limb.when (m.code.size != 0) "Code" (m.codeTree p frames major position),
    Limb.when (!m.exceptions.isEmpty) "Exceptions"
        (.list .exceptions (m.exceptions.map fun i : Nat => .bytes (bytes16 i))),
    Limb.when (Access.wantsSyntheticAttribute m.access major) "Synthetic" (.bytes []),
    Limb.when (m.access.has Access.deprecated_) "Deprecated" (.bytes []),
    Limb.when (!m.signature.isEmpty) "Signature" (.bytes (bytes16 (p.indexOf (.utf8 m.signature)))),
    Limb.when m.parameters.isSome "MethodParameters"
        (.list .parameters (Tree.slices 4 m.parameterCount (m.parameters.getD {}).toList)),
    Limb.when m.defaultValue.isSome "AnnotationDefault"
        (.bytes (store.bytesOf (m.defaultValue.getD 0)).toList),
    Limb.ofAnnotationLists store m.annotations,
    Limb.ofParameters store "RuntimeVisibleParameterAnnotations" m.hiddenParameters
        m.visibleParameters,
    Limb.ofParameters store "RuntimeInvisibleParameterAnnotations" m.hiddenParameters
        m.invisibleParameters,
    Limb.ofRaw m.attributes.toList]

section

variable {p : Pool} {counted : Prop} {m : Method} {frames : List (List UInt8)}

theorem Frames.spell_eq (h : m.Frames frames) :
    (Tree.list .frames (frames.map fun row => .bytes row)).spell =
      bytes16 m.frameCount ++ (m.stackMap.getD {}).toList := by
  rw [Tree.spell_rows .frames (fun row => row), h.count, h.bytes, flatMap_id']
  rfl

theorem of_tableLimbs (hframes : m.Frames frames) (major : Int) :
    Forall₂ (Limb.Of p) (m.tables major) (m.tableLimbs frames major) :=
  rel_flatten <| .cons (Limb.of_bytes fun _ => Tree.spell_rows .locals _ _) <|
    .cons (Limb.of_bytes fun _ => Tree.spell_rows .localTypes _ _) <|
    .cons (Limb.of_bytes fun _ => Tree.spell_rows .lines _ _) <|
    .cons (Limb.of_bytes fun _ => hframes.spell_eq) <| .cons (Limb.of_raw _) .nil

theorem spell_codeTree (hwf : p.Wf { counted }) (hframes : m.Frames frames) {major : Int}
    {position : LabelId → Nat} {b : Buffer} (h : (Content.code m major position).Made p b) :
    b.toList = (m.codeTree p frames major position).spell := by
  obtain ⟨-, as, hb, htables⟩ := h
  have hmade : Forall₂ (Part.Made p) (m.tables major) as := by
    refine htables.imp fun part a ha => ⟨ha.1, ?_, ha.2.2⟩
    rw [ha.2.1]
    exact (rfl : a.content.toList = a.content.toList)
  rw [hb, codeBytes, codeTree, Tree.spell_row]
  simp only [flatMap_cons, flatMap_nil, append_nil, Tree.spell_rows,
    Limb.spell_trees hwf (of_tableLimbs hframes major) hmade]
  simp only [Tree.spell, ListKind.count, Array.length_toList, append_assoc]

theorem of_limbs (hwf : p.Wf { counted }) (hframes : m.Frames frames)
    (hparameters : (m.parameters.getD {}).toList.length = 4 * m.parameterCount) (major : Int)
    (position : LabelId → Nat) (store : AnnotationStore) :
    Forall₂ (Limb.Of p) (m.parts major position store)
      (m.limbs p frames major position store) :=
  rel_flatten <| .cons (Limb.of_when fun _ _ hb => spell_codeTree hwf hframes hb) <|
    .cons (Limb.of_bytes fun _ => Tree.spell_rows .exceptions _ _) <|
    .cons Limb.of_plain <| .cons Limb.of_plain <| .cons (Limb.of_text hwf) <|
    .cons (Limb.of_bytes fun _ => Tree.spell_slices hparameters .parameters) <|
    .cons Limb.of_plain <| .cons (Limb.of_annotationLists _ _) <|
    .cons (Limb.of_parameters _ _ _ _) <| .cons (Limb.of_parameters _ _ _ _) <|
    .cons (Limb.of_raw _) .nil

end

end Method

/-! ## Classes -/

namespace Pool

theorem bytes16_mod (n : Nat) : bytes16 (n % 65536 : Nat) = bytes16 n := by
  have hlow {v w : Int} (h : v % 256 = w % 256) : low8 v = low8 w := by
    have hv := Buffer.toNat_low8 v
    have hw := Buffer.toNat_low8 w
    exact UInt8.toNat_inj.1 (by omega)
  have hhigh : low8 (((n % 65536 : Nat) : Int) / 256) = low8 ((n : Int) / 256) := hlow (by omega)
  have hlast : low8 ((n % 65536 : Nat) : Int) = low8 n := hlow (by omega)
  rw [bytes16, bytes16, hhigh, hlast]

def Block.tree (b : Block) : Tree :=
  .row [.bytes (bytes16 b.method.toNat),
    .list .arguments (b.args.map fun a => .bytes (bytes16 a.toNat))]

theorem Block.spell_tree (b : Block) : b.tree.spell = wordBytes b.words := by
  have hcount : bytes16 (UInt16.ofNat b.args.length).toNat = bytes16 b.args.length := by
    rw [UInt16.toNat_ofNat']
    exact bytes16_mod b.args.length
  rw [tree, Tree.spell_row, wordBytes, words]
  simp only [flatMap_cons, flatMap_nil, append_nil, Tree.spell_rows, hcount]
  rfl

theorem Holds.spell_eq {p : Pool} {bs : List Block} (h : p.Holds bs) :
    (Tree.list .bootstraps (bs.map Block.tree)).spell =
      bytes16 p.bootstrapCount ++ p.bootstrapBytes.toList := by
  rw [h.bytes, h.count]
  refine Tree.spell_list_of ?_ .bootstraps
  exact forall₂_map_right_iff.2 (forall₂_same.2 fun b _ => b.spell_tree.symm)

end Pool

namespace ClassBody

def limbs (c : ClassBody) (p : Pool) (blocks : List Pool.Block) (major : Int) : List Limb :=
  List.flatten [
    Limb.when (p.bootstrapCount != 0) "BootstrapMethods"
        (.list .bootstraps (blocks.map Pool.Block.tree)),
    Limb.when (c.signatureIndex != 0) "Signature" (.bytes (bytes16 c.signatureIndex)),
    Limb.when (c.sourceIndex != 0) "SourceFile" (.bytes (bytes16 c.sourceIndex)),
    Limb.when c.sourceDebug.isSome "SourceDebugExtension" (.bytes (c.sourceDebug.getD [])),
    Limb.when (c.outerIndex != 0) "EnclosingMethod"
        (.bytes (bytes16 c.outerIndex ++ bytes16 c.outerMethodIndex)),
    Limb.when (c.access.has Access.deprecated_) "Deprecated" (.bytes []),
    Limb.when (Access.wantsSyntheticAttribute c.access major) "Synthetic" (.bytes []),
    Limb.when c.inner.isSome "InnerClasses"
        (.list .innerClasses (Tree.slices 8 c.innerCount (c.inner.getD {}).toList)),
    Limb.ofAnnotationLists c.store c.annotations,
    Limb.ofRaw c.attributes.toList]

/-- How the stack maps and the bootstrap methods of a class are taken apart. -/
structure Layout (c : ClassBody) (p : Pool) where
  frames : MethodId → List (List UInt8)
  blocks : List Pool.Block
  maps : ∀ id ∈ c.written, (c.methodOf id).Frames (frames id)
  holds : p.Holds blocks

namespace Layout

variable {c : ClassBody} {p : Pool}

def tree (l : c.Layout p) (s : Session) : Tree :=
  .row [
    .bytes (bytes32 ClassFile.magic ++ (bytes16 (s.version / 65536) ++ (bytes16 s.version ++
      (bytes16 p.count ++ p.bytes.toList)))),
    .bytes (bytes16 (Access.written c.access) ++ (bytes16 c.thisIndex ++ bytes16 c.superIndex)),
    .list .interfaces (c.interfaces.map fun i : Nat => .bytes (bytes16 i)),
    .list .fields (c.fields.toList.map fun f =>
      Member.tree p f.access f.nameIndex f.descIndex (f.limbs p s.major c.store)),
    .list .methods (c.written.toList.map fun id =>
      Member.tree p (c.methodOf id).access (c.methodOf id).nameIndex (c.methodOf id).descIndex
        ((c.methodOf id).limbs p (l.frames id) s.major (positionIn s) c.store)),
    Limb.trees p (c.limbs p l.blocks s.major)]

end Layout

variable {c : ClassBody} {p : Pool} {counted : Prop}

theorem of_limbs {blocks : List Pool.Block} (hholds : p.Holds blocks)
    (hinner : (c.inner.getD {}).toList.length = 8 * c.innerCount) (major : Int) :
    Forall₂ (Limb.Of p) (c.parts p major) (c.limbs p blocks major) :=
  rel_flatten <| .cons (Limb.of_bytes fun _ => hholds.spell_eq) <| .cons Limb.of_plain <|
    .cons Limb.of_plain <| .cons Limb.of_plain <| .cons Limb.of_plain <| .cons Limb.of_plain <|
    .cons Limb.of_plain <| .cons (Limb.of_bytes fun _ => Tree.spell_slices hinner .innerClasses) <|
    .cons (Limb.of_annotationLists _ _) <| .cons (Limb.of_raw _) .nil

theorem Prepared.tallied (h : c.Prepared p) {id : MethodId} (hid : id ∈ c.written) :
    (c.methodOf id).Tallied p := by
  obtain ⟨m, hm, htallied⟩ := h.methods id hid
  rw [methodOf, hm, Option.getD_some]
  exact htallied

theorem Prepared.exists_layout (h : c.Prepared p) (hwf : p.Wf { counted })
    (hfail : p.failure = none) : Nonempty (c.Layout p) := by
  have hframes (id : MethodId) : ∃ rows, id ∈ c.written → (c.methodOf id).Frames rows := by
    by_cases hid : id ∈ c.written
    · obtain ⟨rows, hbytes, hcount, hforms⟩ := (h.tallied hid).mapped hfail
      exact ⟨rows, fun _ => ⟨hbytes, hcount.symm, hforms⟩⟩
    · exact ⟨[], fun hid' => absurd hid' hid⟩
  choose frames hframes using hframes
  obtain ⟨blocks, hblocks, -⟩ := hwf.blocks
  exact ⟨frames, blocks, hframes, hblocks⟩

theorem Layout.spell_tree (l : c.Layout p) {s : Session} {file : ClassFile}
    (h : c.MadeInto s p file) (hprepared : c.Prepared p) (hwf : p.Wf { counted }) (room : Int) :
    (file.write room).toList = (l.tree s).spell := by
  have hfields := Tree.spell_list_of (forall₂_map_right_iff.2 <|
    h.fields.flip.imp fun member f hmade => hmade.bytes_eq hwf (f.of_limbs hwf s.major c.store))
    .fields
  have hmethods := Tree.spell_list_of (forall₂_map_right_iff.2 <|
    Forall₂.flip <| forall₂_mem h.methods fun id hid member hmade =>
      hmade.bytes_eq hwf <| Method.of_limbs hwf (l.maps id (Array.mem_toList_iff.1 hid))
        (hprepared.tallied (Array.mem_toList_iff.1 hid)).parameters s.major (positionIn s) c.store)
    .methods
  have hattributes := Limb.spell_trees hwf (of_limbs l.holds hprepared.inner.size s.major)
    h.attributes
  rw [ClassFile.toList_write, tree, Tree.spell_row, h.version, h.poolCount, h.poolBytes, h.access,
    h.thisIndex, h.superIndex, h.interfaces, h.attributeCount]
  simp only [flatMap_cons, flatMap_nil, append_nil, hfields, hmethods, hattributes,
    Tree.spell_rows]
  simp only [Tree.spell, ListKind.count, append_assoc]

/-! ## Lists that always fit -/

theorem Listed.innerCount_lt (h : c.Listed p) (hwf : p.Wf { counted }) (hfail : p.failure = none) :
    c.innerCount < 65536 := by
  have hindex (name : Text) : ∃ i, name ∈ c.innerNames → p.at? i = some (.classRef name) := by
    by_cases hname : name ∈ c.innerNames
    · obtain ⟨i, hi⟩ := Option.isSome_iff_exists.1 (h.known name hname)
      exact ⟨i, fun _ => (hwf.index _ _).1 hi⟩
    · exact ⟨0, fun hname' => absurd hname' hname⟩
  choose index hindex using hindex
  have hmem {name : Text} (hname : name ∈ c.innerNames.toList) : name ∈ c.innerNames :=
    Std.HashSet.mem_toList.1 hname
  have hnodup : (c.innerNames.toList.map index).Nodup := by
    refine Nodup.map_on (fun a ha b hb hab => ?_) ?_
    · have hconstant := hindex a (hmem ha)
      rw [hab, hindex b (hmem hb)] at hconstant
      exact (Constant.classRef.inj (Option.some.inj hconstant)).symm
    · exact Std.HashSet.distinct_toList.imp fun hne => by simpa using hne
  have hrange : c.innerNames.toList.map index ⊆ List.range p.entries.size := by
    intro i hi
    obtain ⟨name, hname, rfl⟩ := mem_map.1 hi
    exact mem_range.2 (Pool.at?_lt_size (hindex name (hmem hname)))
  have hle := (hnodup.subperm hrange).length_le
  rw [length_map, Std.HashSet.length_toList, length_range, ← h.count] at hle
  have hmax : p.entries.size ≤ 0xFFFF := hwf.bounded hfail
  omega

end ClassBody

namespace Limb

variable {p : Pool}

variable {wanted : Bool} {name : String}

def Pooled (ls : List Limb) : Prop := ∀ l ∈ ls, l.content.Pooled

theorem pooled_nil : Pooled [] := nofun

theorem Pooled.append {ls ls' : List Limb} (h : Pooled ls) (h' : Pooled ls') :
    Pooled (ls ++ ls') :=
  fun l hl => (mem_append.1 hl).elim (h l) (h' l)

theorem pooled_when {t : Tree} (h : t.Pooled) : Pooled (when wanted name t) := by
  intro l hl
  unfold when at hl
  split at hl
  · rw [mem_singleton.1 hl]
    exact h
  · cases hl

theorem pooled_plain {bs : List UInt8} : Pooled (when wanted name (.bytes bs)) :=
  pooled_when (Tree.within_bytes bs)

theorem pooled_rows {α : Type} {kind : ListKind} (hkind : ¬ kind.IsPooled) (enc : α → List UInt8)
    (as : List α) : Pooled (when wanted name (.list kind (as.map fun a => .bytes (enc a)))) :=
  pooled_when (Tree.within_rows fun h => absurd h hkind)

theorem pooled_raw (as : List RawAttribute) : Pooled (ofRaw as) := by
  intro l hl
  obtain ⟨a, -, rfl⟩ := mem_map.1 hl
  exact Tree.within_bytes _

theorem pooled_annotationLists (store : AnnotationStore) (l : AnnotationLists) :
    Pooled (ofAnnotationLists store l) := by
  have hlist (wanted : Bool) (name : String) (ids : Array AnnotationId) :
      Pooled (when wanted name (annotations store ids)) :=
    pooled_when (Tree.within_rows nofun)
  exact (hlist _ _ _).append <| (hlist _ _ _).append <| (hlist _ _ _).append <|
    (hlist _ _ _).append pooled_nil

theorem pooled_parameters (store : AnnotationStore) (name : String) (hidden : Nat)
    (lists : Option (Array (Array AnnotationId))) :
    Pooled (ofParameters store name hidden lists) := by
  cases lists with
  | none => exact pooled_nil
  | some lists =>
    refine pooled_when (Tree.within_list nofun fun t ht => ?_)
    obtain ⟨ids, -, rfl⟩ := mem_map.1 ht
    exact Tree.within_rows nofun

theorem Pooled.trees {ls : List Limb} (h : Pooled ls) : (trees p ls).Pooled := by
  refine Tree.within_list nofun fun t ht => ?_
  obtain ⟨l, hl, rfl⟩ := mem_map.1 ht
  exact (Tree.within_bytes _).cons <| (Tree.within_bytes _).cons <| (h l hl).cons Tree.within_nil

end Limb

theorem Member.pooled_tree {p : Pool} {access : Flags} {name desc : Nat} {ls : List Limb}
    (h : Limb.Pooled ls) : (Member.tree p access name desc ls).Pooled :=
  (Tree.within_bytes _).cons <| (Tree.within_bytes _).cons <| (Tree.within_bytes _).cons <|
    h.trees.cons Tree.within_nil

theorem Field.pooled_limbs (f : Field) (p : Pool) (major : Int) (store : AnnotationStore) :
    Limb.Pooled (f.limbs p major store) :=
  Limb.pooled_plain.append <| Limb.pooled_plain.append <| Limb.pooled_plain.append <|
    Limb.pooled_plain.append <| (Limb.pooled_annotationLists _ _).append <|
    (Limb.pooled_raw _).append Limb.pooled_nil

namespace Method

theorem pooled_tableLimbs (m : Method) (frames : List (List UInt8)) (major : Int) :
    Limb.Pooled (m.tableLimbs frames major) :=
  (Limb.pooled_rows id _ _).append <| (Limb.pooled_rows id _ _).append <|
    (Limb.pooled_rows id _ _).append <| (Limb.pooled_rows id _ _).append <|
    (Limb.pooled_raw _).append Limb.pooled_nil

theorem pooled_codeTree (m : Method) (p : Pool) (frames : List (List UInt8)) (major : Int)
    (position : LabelId → Nat) : (m.codeTree p frames major position).Pooled :=
  (Tree.within_bytes _).cons <| (Tree.within_bytes _).cons <| (Tree.within_bytes _).cons <|
    (Tree.within_bytes _).cons <| (Tree.within_rows nofun).cons <|
    (m.pooled_tableLimbs frames major).trees.cons Tree.within_nil

theorem pooled_limbs (m : Method) (p : Pool) (frames : List (List UInt8)) (major : Int)
    (position : LabelId → Nat) (store : AnnotationStore) :
    Limb.Pooled (m.limbs p frames major position store) := by
  have hparameters : (Tree.list .parameters
      (Tree.slices 4 m.parameterCount (m.parameters.getD {}).toList)).Pooled :=
    Tree.within_slices nofun
  exact (Limb.pooled_when (m.pooled_codeTree p frames major position)).append <|
    (Limb.pooled_rows id _ _).append <| Limb.pooled_plain.append <|
    Limb.pooled_plain.append <| Limb.pooled_plain.append <|
    (Limb.pooled_when hparameters).append <| Limb.pooled_plain.append <|
    (Limb.pooled_annotationLists _ _).append <| (Limb.pooled_parameters _ _ _ _).append <|
    (Limb.pooled_parameters _ _ _ _).append <| (Limb.pooled_raw _).append Limb.pooled_nil

end Method

namespace ClassBody

variable {c : ClassBody} {p : Pool} {counted : Prop}

theorem pooled_limbs {blocks : List Pool.Block} (hblocks : blocks.length < 65536)
    (hinner : c.innerCount < 65536) (major : Int) : Limb.Pooled (c.limbs p blocks major) := by
  have hbootstraps : (Tree.list .bootstraps (blocks.map Pool.Block.tree)).Pooled := by
    refine Tree.within_list (fun _ => by rwa [length_map]) fun t ht => ?_
    obtain ⟨b, -, rfl⟩ := mem_map.1 ht
    exact (Tree.within_bytes _).cons <| (Tree.within_rows nofun).cons Tree.within_nil
  exact (Limb.pooled_when hbootstraps).append <| Limb.pooled_plain.append <|
    Limb.pooled_plain.append <| Limb.pooled_plain.append <| Limb.pooled_plain.append <|
    Limb.pooled_plain.append <| Limb.pooled_plain.append <|
    (Limb.pooled_when (Tree.within_slices fun _ => hinner)).append <|
    (Limb.pooled_annotationLists _ _).append <| (Limb.pooled_raw _).append Limb.pooled_nil

theorem Layout.pooled_tree (l : c.Layout p) (s : Session) (hblocks : l.blocks.length < 65536)
    (hinner : c.innerCount < 65536) : (l.tree s).Pooled := by
  have hfields : (Tree.list .fields (c.fields.toList.map fun f =>
      Member.tree p f.access f.nameIndex f.descIndex (f.limbs p s.major c.store))).Pooled := by
    refine Tree.within_list nofun fun t ht => ?_
    obtain ⟨f, -, rfl⟩ := mem_map.1 ht
    exact Member.pooled_tree (f.pooled_limbs p s.major c.store)
  have hmethods : (Tree.list .methods (c.written.toList.map fun id =>
      Member.tree p (c.methodOf id).access (c.methodOf id).nameIndex (c.methodOf id).descIndex
        ((c.methodOf id).limbs p (l.frames id) s.major (positionIn s) c.store))).Pooled := by
    refine Tree.within_list nofun fun t ht => ?_
    obtain ⟨id, -, rfl⟩ := mem_map.1 ht
    exact Member.pooled_tree ((c.methodOf id).pooled_limbs _ _ _ _ _)
  exact (Tree.within_bytes _).cons <| (Tree.within_bytes _).cons <|
    (Tree.within_rows nofun).cons <| hfields.cons <| hmethods.cons <|
    (pooled_limbs hblocks hinner s.major).trees.cons Tree.within_nil

end ClassBody

/-! ## Counts -/

namespace Call

open ClassBody

variable {x z : State}

/-- A class with an inner class and a method with two named parameters. -/
def nestedSample : List Call := [
  .visit (.header 52 33 "A" "" "B" []), .visit (.innerClass "A$C" "A" "C" 8),
  .visit (.method 1025 "m" "(II)V" "" []), .visit (.parameter 0 "" 16), .visit (.parameter 0 "" 0)]

end Call

end ClassAssembler
