import ClassAssembler.Label

/-!
# Exception ranges

A row of an exception table protects the code from one label up to another.  The range of code that
is found to be unreachable is taken out of every row.
-/

namespace ClassAssembler

structure Handler where
  start : LabelId
  stop : LabelId
  handler : LabelId
  /-- The name of the caught class, empty for every exception. -/
  caught : Text
  /-- Its index in the constant pool, zero for every exception. -/
  caughtIndex : Nat
deriving DecidableEq, Repr, Inhabited

namespace Handler

def farEnd : Nat := 0x7fffffff

def subtractFrom (position : LabelId → Nat) (start : LabelId) (stop : Option LabelId)
    (h : Handler) : List Handler :=
  let s := position start
  let e := match stop with
    | some l => position l
    | none => farEnd
  let hs := position h.start
  let he := position h.stop
  if he ≤ s ∨ e ≤ hs then [h]
  else if s ≤ hs ∧ he ≤ e then []
  else
    match stop with
    | none => [{ h with stop := start }]
    | some l =>
      if s ≤ hs then [{ h with start := l }]
      else if he ≤ e then [{ h with stop := start }]
      else [{ h with stop := start }, { h with start := l }]

def subtract (position : LabelId → Nat) (start : LabelId) (stop : Option LabelId)
    (rows : Array Handler) : Array Handler :=
  rows.flatMap fun h => (subtractFrom position start stop h).toArray

end Handler

end ClassAssembler
