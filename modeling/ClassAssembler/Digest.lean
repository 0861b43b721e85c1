import ClassAssembler.Text.Quoted

/-!
# Digests

The BLAKE2b digest of thirty-two bytes, without a key.
-/

namespace ClassAssembler

namespace Digest

def initial : Array UInt64 :=
  #[0x6a09e667f3bcc908, 0xbb67ae8584caa73b, 0x3c6ef372fe94f82b, 0xa54ff53a5f1d36f1,
    0x510e527fade682d1, 0x9b05688c2b3e6c1f, 0x1f83d9abfb41bd6b, 0x5be0cd19137e2179]

def orders : List (List Nat) :=
  let ten := [
    [0, 1, 2, 3, 4, 5, 6, 7, 8, 9, 10, 11, 12, 13, 14, 15],
    [14, 10, 4, 8, 9, 15, 13, 6, 1, 12, 0, 2, 11, 7, 5, 3],
    [11, 8, 12, 0, 5, 2, 15, 13, 10, 14, 3, 6, 7, 1, 9, 4],
    [7, 9, 3, 1, 13, 12, 11, 14, 2, 6, 5, 10, 4, 0, 15, 8],
    [9, 0, 5, 7, 2, 4, 10, 15, 14, 1, 11, 12, 6, 8, 3, 13],
    [2, 12, 6, 10, 0, 11, 8, 3, 4, 13, 7, 5, 15, 14, 1, 9],
    [12, 5, 1, 15, 14, 13, 4, 10, 0, 7, 6, 3, 9, 2, 8, 11],
    [13, 11, 7, 14, 12, 1, 3, 9, 5, 0, 15, 4, 8, 6, 2, 10],
    [6, 15, 14, 9, 11, 3, 0, 8, 12, 2, 13, 7, 1, 4, 10, 5],
    [10, 2, 8, 4, 7, 6, 1, 5, 15, 11, 9, 14, 3, 12, 13, 0]]
  ten ++ ten.take 2

def lanes : List (Nat × Nat × Nat × Nat) :=
  [(0, 4, 8, 12), (1, 5, 9, 13), (2, 6, 10, 14), (3, 7, 11, 15),
    (0, 5, 10, 15), (1, 6, 11, 12), (2, 7, 8, 13), (3, 4, 9, 14)]

def rotate (x : UInt64) (n : UInt64) : UInt64 := (x >>> n) ||| (x <<< (64 - n))

def mix (v : Array UInt64) (lane : Nat × Nat × Nat × Nat) (x y : UInt64) : Array UInt64 :=
  let (ia, ib, ic, id) := lane
  let a := v.getD ia 0 + v.getD ib 0 + x
  let d := rotate (v.getD id 0 ^^^ a) 32
  let c := v.getD ic 0 + d
  let b := rotate (v.getD ib 0 ^^^ c) 24
  let a := a + b + y
  let d := rotate (d ^^^ a) 16
  let c := c + d
  let b := rotate (b ^^^ c) 63
  (((v.setIfInBounds ia a).setIfInBounds ib b).setIfInBounds ic c).setIfInBounds id d

def mixRound (block : Array UInt64) : List (Nat × Nat × Nat × Nat) → List Nat → Array UInt64 →
    Array UInt64
  | lane :: lanes, i :: j :: order, v =>
    mixRound block lanes order (mix v lane (block.getD i 0) (block.getD j 0))
  | _, _, v => v

def compress (h : Array UInt64) (block : Array UInt64) (taken : Nat) (isLast : Bool) :
    Array UInt64 :=
  let v := h ++ initial
  let v := v.setIfInBounds 12 (v.getD 12 0 ^^^ UInt64.ofNat taken)
  let v := if isLast then v.setIfInBounds 14 (~~~(v.getD 14 0)) else v
  let v := orders.foldl (fun v order => mixRound block lanes order v) v
  (Array.range 8).map fun i => h.getD i 0 ^^^ v.getD i 0 ^^^ v.getD (i + 8) 0

def wordAt (data : Array UInt8) (i : Nat) : UInt64 :=
  (List.range 8).foldr (fun k w => w <<< 8 ||| (data.getD (i + k) 0).toUInt64) 0

def blockAt (data : Array UInt8) (i : Nat) : Array UInt64 :=
  (Array.range 16).map fun k => wordAt data (i + 8 * k)

def blockSize : Nat := 128

def ofBytes (data : Array UInt8) : List UInt8 :=
  -- the first word also tells the length of the digest
  let start := initial.setIfInBounds 0 (initial.getD 0 0 ^^^ 0x01010020)
  let count := max 1 ((data.size + blockSize - 1) / blockSize)
  let h := (List.range count).foldl (fun h k =>
    let isLast := k + 1 = count
    compress h (blockAt data (k * blockSize))
      (if isLast then data.size else (k + 1) * blockSize) isLast) start
  (List.range 32).map fun k => (h.getD (k / 8) 0 >>> UInt64.ofNat (8 * (k % 8))).toUInt8

def hexadecimal (data : Array UInt8) : Text := (ofBytes data).flatMap fun b => Text.hex 2 b.toNat

end Digest

end ClassAssembler
