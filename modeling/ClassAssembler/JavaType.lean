import ClassAssembler.Text.Basic

/-!
# Types and descriptors

The readers follow a method descriptor byte by byte and do not check it first: on an ill-formed
one they give the parts that this reading finds, and stop with a fault where it runs past the end.
-/

namespace ClassAssembler

inductive TypeSort where
  | void
  | boolean
  | char
  | byte
  | short
  | int
  | float
  | long
  | double
  | array
  | object
  | method
deriving DecidableEq, Repr, Inhabited

namespace TypeSort

def code : TypeSort → Nat
  | void => 0
  | boolean => 1
  | char => 2
  | byte => 3
  | short => 4
  | int => 5
  | float => 6
  | long => 7
  | double => 8
  | array => 9
  | object => 10
  | method => 11

def ofFirst (b : UInt8) : TypeSort :=
  match Char.ofUInt8 b with
  | 'V' => void
  | 'Z' => boolean
  | 'C' => char
  | 'B' => byte
  | 'S' => short
  | 'I' => int
  | 'F' => float
  | 'J' => long
  | 'D' => double
  | '[' => array
  | '(' => method
  | _ => object

end TypeSort

structure JavaType where
  sort : TypeSort
  desc : Text
deriving DecidableEq, Repr, Inhabited

structure CallSize where
  arguments : Nat
  result : Nat
deriving DecidableEq, Repr, Inhabited

namespace JavaType

def openParen : UInt8 := 40
def closeParen : UInt8 := 41
def semicolon : UInt8 := 59
def bracket : UInt8 := 91
def classMark : UInt8 := 76

/-- The type with a given descriptor.  A basic type keeps only the first byte, and the empty
descriptor counts as void. -/
def ofDescriptor (desc : Text) : JavaType :=
  match desc with
  | [] => ⟨.void, "V"⟩
  | b :: _ =>
    match TypeSort.ofFirst b with
    | .array => ⟨.array, desc⟩
    | .method => ⟨.method, desc⟩
    | .object => ⟨.object, desc⟩
    | sort => ⟨sort, [b]⟩

def ofName (name : Text) : JavaType :=
  if name.head? = some bracket then ⟨.array, name⟩
  else ⟨.object, [classMark] ++ name ++ [semicolon]⟩

def ofMethod (desc : Text) : JavaType := ⟨.method, desc⟩

def internalName (t : JavaType) : Checked Text :=
  if t.sort = .object then t.desc.slice 1 (t.desc.length - 1) else .ok t.desc

def size (t : JavaType) : Nat :=
  match t.sort with
  | .void => 0
  | .long | .double => 2
  | _ => 1

def splitField (t : Text) : Checked (Text × Text) :=
  let dims := t.takeWhile (· = bracket)
  match t.dropWhile (· = bracket) with
  | [] => .error .outOfRange
  | b :: r =>
    if b = classMark then
      match Text.after? semicolon r with
      | some rest => .ok (t.take (t.length - rest.length), rest)
      | none => .error .endless
    else .ok (dims ++ [b], r)

theorem splitField_length {t f r : Text} (h : splitField t = .ok (f, r)) :
    r.length < t.length := by
  have hdrop : (t.dropWhile (· = bracket)).length ≤ t.length :=
    (List.dropWhile_sublist _).length_le
  unfold splitField at h
  split at h
  · cases h
  next b rest hd =>
    rw [hd, List.length_cons] at hdrop
    split at h
    · split at h
      next r' hr =>
        have := Text.after?_length hr
        cases h
        omega
      · cases h
    · cases h
      omega

def parameters (t : Text) : Checked (List JavaType) :=
  match t with
  | [] => .ok []
  | b :: r =>
    if b = closeParen then .ok []
    else
      match h : splitField (b :: r) with
      | .error e => .error e
      | .ok (f, rest) =>
        have := splitField_length h
        (parameters rest).map (ofDescriptor f :: ·)
termination_by t.length
decreasing_by assumption

def argumentTypes (desc : Text) : Checked (List JavaType) := parameters (desc.drop 1)

def returnType (t : JavaType) : JavaType :=
  match Text.after? closeParen t.desc with
  | some r => ofDescriptor r
  | none => ofDescriptor t.desc

def resultSize : Text → Checked Nat
  | [] => .error .outOfRange
  | b :: _ =>
    match Char.ofUInt8 b with
    | 'V' => .ok 0
    | 'D' | 'J' => .ok 2
    | _ => .ok 1

def countSlots (t : Text) (n : Nat) : Checked CallSize :=
  match t with
  | [] => .error .outOfRange
  | b :: r =>
    if b = closeParen then (resultSize r).map (CallSize.mk n)
    else if b = classMark then
      match h : Text.after? semicolon r with
      | some rest =>
        have := Text.after?_length h
        countSlots rest (n + 1)
      | none => countSlots r (n + 1)
    else if b = bracket then
      have hdrop : (r.dropWhile (· = bracket)).length ≤ r.length :=
        (List.dropWhile_sublist _).length_le
      match h : r.dropWhile (· = bracket) with
      | [] => .error .outOfRange
      | c :: r' =>
        have hr : r'.length < r.length := by
          rw [h, List.length_cons] at hdrop
          omega
        if c = classMark then
          match h' : Text.after? semicolon r' with
          | some rest =>
            have := Text.after?_length h'
            countSlots rest (n + 1)
          | none => countSlots (c :: r') (n + 1)
        else countSlots r' (n + 1)
    else
      match Char.ofUInt8 b with
      | 'D' | 'J' => countSlots r (n + 2)
      | _ => countSlots r (n + 1)
termination_by t.length
decreasing_by all_goals (simp only [List.length_cons] at *; omega)

def callSize (desc : Text) : Checked CallSize := countSlots (desc.drop 1) 1

end JavaType

end ClassAssembler
