import ClassAssembler.Document

/-!
# Growing a TOML document

A node remembers how it came to be, because a table with a header of its own cannot get another
one, and a table that dotted keys began cannot get a header at all.
-/

namespace ClassAssembler

namespace Toml

inductive Origin where
  /-- It stands on the way of a header. -/
  | implied
  /-- It has a header. -/
  | header
  /-- It stands on the way of a dotted key. -/
  | dotted
deriving DecidableEq, Inhabited

inductive Node where
  | leaf (d : Document)
  | table (origin : Origin) (entries : List (Text × Node))
  | tables (done : List (List (Text × Node))) (current : List (Text × Node))
deriving Inhabited

abbrev Entries := List (Text × Node)

namespace Entries

def put (key : Text) (node : Node) : Entries → Entries
  | [] => [(key, node)]
  | (k, n) :: es => if k = key then (k, node) :: es else (k, n) :: put key node es

/-- Adds a value under a dotted key.  Its last part is new, and the parts before it are tables
without headers. -/
def insert? : List Text → Document → Entries → Option Entries
  | [], _, _ => none
  | [key], d, es =>
    match es.lookup key with
    | some _ => none
    | none => some (es.put key (.leaf d))
  | key :: keys, d, es =>
    match es.lookup key with
    | none => (insert? keys d []).map fun inner => es.put key (.table .dotted inner)
    | some (.table origin inner) =>
      if origin = .header then none
      else (insert? keys d inner).map fun inner => es.put key (.table origin inner)
    | some _ => none

def openTable? : List Text → Entries → Option Entries
  | [], _ => none
  | [key], es =>
    match es.lookup key with
    | none => some (es.put key (.table .header []))
    | some (.table .implied inner) => some (es.put key (.table .header inner))
    | some _ => none
  | key :: keys, es =>
    match es.lookup key with
    | none => (openTable? keys []).map fun inner => es.put key (.table .implied inner)
    | some (.table origin inner) =>
      (openTable? keys inner).map fun inner => es.put key (.table origin inner)
    | some (.tables done current) =>
      (openTable? keys current).map fun current => es.put key (.tables done current)
    | some (.leaf _) => none

def openItem? : List Text → Entries → Option Entries
  | [], _ => none
  | [key], es =>
    match es.lookup key with
    | none => some (es.put key (.tables [] []))
    | some (.tables done current) => some (es.put key (.tables (current :: done) []))
    | some _ => none
  | key :: keys, es =>
    match es.lookup key with
    | none => (openItem? keys []).map fun inner => es.put key (.table .implied inner)
    | some (.table origin inner) =>
      (openItem? keys inner).map fun inner => es.put key (.table origin inner)
    | some (.tables done current) =>
      (openItem? keys current).map fun current => es.put key (.tables done current)
    | some (.leaf _) => none

def insertAt? : List Text → List Text → Document → Entries → Option Entries
  | [], key, d, es => es.insert? key d
  | part :: path, key, d, es =>
    match es.lookup part with
    | some (.table origin inner) =>
      (insertAt? path key d inner).map fun inner => es.put part (.table origin inner)
    | some (.tables done current) =>
      (insertAt? path key d current).map fun current => es.put part (.tables done current)
    | _ => none

end Entries

mutual

def Node.toDocument : Node → Document
  | .leaf d => d
  | .table _ entries => .table (documentEntries entries)
  | .tables done current => .list (documentItems done [.table (documentEntries current)])

def documentEntries : List (Text × Node) → List (Text × Document)
  | [] => []
  | (key, node) :: es => (key, node.toDocument) :: documentEntries es

def documentItems : List (List (Text × Node)) → List Document → List Document
  | [], items => items
  | es :: done, items => documentItems done (.table (documentEntries es) :: items)

end

end Toml

end ClassAssembler
