import ClassAssembler.Text.Basic

/-!
# Method handles

Kinds one to four use a field, five to nine a method; kind nine calls a method of an interface.
-/

namespace ClassAssembler

structure Handle where
  kind : Int
  owner : Text
  name : Text
  desc : Text
  ofInterface : Bool
deriving DecidableEq, Repr, Inhabited

namespace Handle

def getField : Int := 1
def putStatic : Int := 4
def invokeStatic : Int := 6
def invokeInterface : Int := 9

def make (kind : Int) (owner name desc : Text) (ofInterface : Bool) : Handle :=
  { kind, owner, name, desc, ofInterface := ofInterface || kind == invokeInterface }

def describe (h : Handle) : Text :=
  h.owner ++ "." ++ h.name ++ h.desc ++ " (" ++ Text.ofInt h.kind
    ++ Text.ofString ")" ++ (if h.ofInterface then Text.ofString " itf" else [])

end Handle

end ClassAssembler
