import ClassAssembler.Assembly
import ClassAssembler.Hierarchy.Platform

/-!
# The assembler

A class under construction with everything that belongs to it.  It takes events and finally gives
the bytes of the class file.
-/

namespace ClassAssembler

structure Options where
  classes : Option ClassTable := none
  defined : List DefinedClass := []
  api : Option Int := none
deriving Inhabited

namespace Options

def hierarchy (o : Options) : Hierarchy :=
  let base := match o.classes with
    | some classes => Hierarchy.table classes
    | none => .unknown
  o.defined.foldl .defining base

def apiLevels : List Int := [4 * 65536, 5 * 65536]

def defaultApi : Int := 5 * 65536

end Options

structure Assembler where
  api : Int := Options.defaultApi
  body : ClassBody := {}
  session : Session := {}
  pool : Pool := {}
deriving Inhabited

namespace Compute

def ofBits (n : Int) : Compute :=
  if n / 2 % 2 = 1 then .frames else if n % 2 = 1 then .maxs else .nothing

end Compute

namespace Assembler

def create (compute : Compute) (o : Options) : Assembler :=
  let a : Assembler := { body := { compute }, session := { hierarchy := o.hierarchy } }
  match o.api with
  | none => a
  | some api =>
    if Options.apiLevels.contains api then { a with api }
    else
      let failure : Failure :=
        ⟨.badApi, "NewClassWriter", [.int (api / 65536)]⟩
      { a with pool := a.pool.recordFailure failure }

@[inline] def run {α : Type} (a : Assembler) (act : ClassM α) : Checked (α × Assembler) := do
  let ⟨api, body, session, pool⟩ := a
  let (((x, body), session), pool) ← ((act.run body).run session).run pool
  return (x, { api, body, session, pool })

end Assembler

end ClassAssembler
