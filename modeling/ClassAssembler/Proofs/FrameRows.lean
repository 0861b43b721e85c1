import ClassAssembler.Proofs.QuietFrames

/-!
# The rows of a stack map

The bytes of a stack map are those of its frames, one behind another, and their number is counted
beside.  `FrameRow` is what a frame looks like in each of its forms; `Method.Mapped` says that the
stack map of a method consists of as many frames as are counted, unless there is a failure.
-/

namespace ClassAssembler

open Buffer List MapItem

/-! ## Frames -/

namespace MapItem

def bytes : MapItem → List UInt8
  | basic code => [low8 code]
  | object index => low8 7 :: bytes16 index
  | fresh offset => low8 8 :: bytes16 offset

theorem toList_put (b : Buffer) (i : MapItem) : (i.put b).toList = b.toList ++ i.bytes := by
  cases i <;> simp [put, bytes, bytes16]

theorem toList_putAll (b : Buffer) (is : List MapItem) :
    (putAll b is).toList = b.toList ++ is.flatMap bytes := by
  induction is generalizing b with
  | nil => simp [putAll]
  | cons i is ih =>
    have hcons : putAll b (i :: is) = putAll (i.put b) is := rfl
    rw [hcons, ih, toList_put, flatMap_cons, append_assoc]

def counted (is : List MapItem) : List UInt8 := bytes16 is.length ++ is.flatMap bytes

theorem toList_putCounted (b : Buffer) (is : List MapItem) :
    (putCounted b is).toList = b.toList ++ counted is := by
  rw [putCounted, toList_putAll, toList_putShort, counted]
  simp [bytes16]

end MapItem

/-- The bytes of a frame in one of its forms. -/
inductive FrameRow : List UInt8 → Prop
  | same (distance : Int) : FrameRow [low8 distance]
  | sameFar (distance : Int) : FrameRow (low8 251 :: bytes16 distance)
  | sameWith (distance : Int) (i : MapItem) : FrameRow (low8 (64 + distance) :: i.bytes)
  | sameFarWith (distance : Int) (i : MapItem) :
      FrameRow (low8 247 :: (bytes16 distance ++ i.bytes))
  | chopped (n : Nat) (distance : Int) : n ≤ 3 → FrameRow (low8 (251 - n) :: bytes16 distance)
  | appended (distance : Int) (is : List MapItem) : is.length ≤ 3 →
      FrameRow (low8 (251 + is.length) :: (bytes16 distance ++ is.flatMap bytes))
  | full (distance : Int) (locals stack : List MapItem) :
      FrameRow (low8 255 :: (bytes16 distance ++ (counted locals ++ counted stack)))
  /-- A frame of a version in which there is only one form. -/
  | only (offset : Int) (locals stack : List MapItem) :
      FrameRow (bytes16 offset ++ (counted locals ++ counted stack))

def AddsFrame (b b' : Buffer) : Prop := ∃ row, FrameRow row ∧ b'.toList = b.toList ++ row

theorem SlotType.length_toItems {ts : List SlotType} {is : List MapItem} {s t : Pool × Session}
    (e : Ends (SlotType.toItems ts) s is t) : is.length = ts.length := by
  induction ts generalizing s t is with
  | nil =>
    obtain ⟨rfl, -⟩ := e.pure
    rfl
  | cons _ ts ih =>
    obtain ⟨i, s₁, -, e⟩ := e.bind
    obtain ⟨is', s₂, h, e⟩ := e.bind
    obtain ⟨rfl, -⟩ := e.pure
    rw [length_cons, length_cons, ih h]

namespace MapFrame

variable {f before : MapFrame} {b b' : Buffer} {s t : Pool × Session}

theorem toList_putFull (e : Ends (f.putFull b) s b' t) :
    ∃ locals stack, b'.toList = b.toList ++ (counted locals ++ counted stack) := by
  obtain ⟨locals, _, -, e⟩ := e.bind
  obtain ⟨stack, _, -, e⟩ := e.bind
  obtain ⟨rfl, -⟩ := e.pure
  refine ⟨locals, stack, ?_⟩
  rw [toList_putCounted, toList_putCounted, append_assoc]

def Short : FrameForm → Prop
  | .chopped n => n ≤ 3
  | .appended ts => ts.length ≤ 3
  | _ => True

theorem short_form (f before : MapFrame) (distance : Int) : Short (f.form before distance) := by
  unfold form
  split
  · split
    · split <;> trivial
    · split
      · dsimp only
        split
        next h => exact h.2
        next => trivial
      · dsimp only
        split
        next h => exact h.2
        next => trivial
  · split
    · split <;> trivial
    · trivial
  · trivial

theorem adds_putForm {distance : Int} {form : FrameForm} (hshort : Short form)
    (e : Ends (f.putForm distance b form) s b' t) : AddsFrame b b' := by
  cases form with
  | same =>
    obtain ⟨rfl, -⟩ := e.pure
    exact ⟨_, .same distance, toList_putByte b distance⟩
  | sameFar =>
    obtain ⟨rfl, -⟩ := e.pure
    exact ⟨_, .sameFar distance, toList_putTagged b 251 distance⟩
  | sameWith =>
    obtain ⟨i, _, -, e⟩ := e.bind
    obtain ⟨rfl, -⟩ := e.pure
    refine ⟨_, .sameWith distance i, ?_⟩
    rw [toList_put, toList_putByte, append_assoc]
    rfl
  | sameFarWith =>
    obtain ⟨i, _, -, e⟩ := e.bind
    obtain ⟨rfl, -⟩ := e.pure
    refine ⟨_, .sameFarWith distance i, ?_⟩
    rw [toList_put, toList_putTagged, append_assoc]
    rfl
  | chopped n =>
    obtain ⟨rfl, -⟩ := e.pure
    exact ⟨_, .chopped n distance hshort, toList_putTagged b (251 - n) distance⟩
  | appended ts =>
    obtain ⟨is, _, h, e⟩ := e.bind
    obtain ⟨rfl, -⟩ := e.pure
    have hlength := SlotType.length_toItems h
    refine ⟨_, .appended distance is (hlength ▸ hshort), ?_⟩
    rw [toList_putAll, toList_putTagged, append_assoc, hlength]
    rfl
  | full =>
    obtain ⟨locals, stack, hb'⟩ := toList_putFull e
    refine ⟨_, .full distance locals stack, ?_⟩
    rw [hb', toList_putTagged, append_assoc]
    rfl

theorem adds_put {isFirst : Bool} (e : Ends (f.put before isFirst b) s b' t) : AddsFrame b b' := by
  obtain ⟨session, s₁, -, e⟩ := e.bind
  split at e
  · obtain ⟨locals, stack, hb'⟩ := toList_putFull e
    refine ⟨_, .only f.offset locals stack, ?_⟩
    rw [hb', toList_putShort, append_assoc]
    rfl
  · exact adds_putForm (short_form f before _) e

end MapFrame

/-! ## Stack maps -/

namespace Method

/-- The stack map of a method consists of the frames that are counted. -/
def Mapped (p : Pool) (m : Method) : Prop :=
  p.failure = none → ∃ rows : List (List UInt8), (m.stackMap.getD {}).toList = rows.flatten ∧
    rows.length = m.frameCount ∧ ∀ row ∈ rows, FrameRow row

variable {p q : Pool} {m m' : Method}

def mapping (m : Method) : List UInt8 × Nat := ((m.stackMap.getD {}).toList, m.frameCount)

theorem mapped_empty (h : m.mapping = ([], 0)) : m.Mapped p := by
  obtain ⟨hbytes, hcount⟩ := Prod.mk.inj h
  exact fun _ => ⟨[], hbytes, hcount.symm, by simp⟩

theorem Mapped.congr (h : m.Mapped p) (hpq : p.Onward q) (hm : m'.mapping = m.mapping) :
    m'.Mapped q := by
  obtain ⟨hbytes, hcount⟩ := Prod.mk.inj hm
  intro hq
  rw [hbytes, hcount]
  exact h (hpq.no_failure hq)

theorem Mapped.adds (h : m.Mapped p) (hpq : p.Onward q)
    (hbytes : q.failure = none → AddsFrame (m.stackMap.getD {}) (m'.stackMap.getD {}))
    (hcount : m'.frameCount = m.frameCount + 1) : m'.Mapped q := by
  intro hq
  obtain ⟨rows, hrows, hlength, hall⟩ := h (hpq.no_failure hq)
  obtain ⟨row, hrow, htoList⟩ := hbytes hq
  refine ⟨rows ++ [row], ?_, ?_, ?_⟩
  · rw [htoList, hrows, flatten_append, flatten_singleton]
  · rw [hcount, length_append, hlength, length_singleton]
  · simp only [mem_append, mem_singleton]
    rintro r (hr | rfl)
    · exact hall r hr
    · exact hrow

end Method

namespace MethodM

variable {u v : (Pool × Session) × Method}

variable {kind : Int} {locals stack : List (FrameItem LabelId)}

theorem ends_onStackMap {f : Buffer → SessionM Buffer} {a : Unit} (e : Ends (onStackMap f) u a v) :
    ∃ b, Ends (f (u.2.stackMap.getD {})) u.1 b v.1 ∧ v.2 = { u.2 with stackMap := some b } := by
  obtain ⟨b, w, h, e⟩ := e.bind
  obtain ⟨rfl, rfl⟩ := ends_modifyGet.1 h
  obtain ⟨b', w, h, e⟩ := e.bind
  obtain ⟨h, hm⟩ := h.lift
  obtain rfl := e.modify
  refine ⟨b', h, ?_⟩
  rw [← hm]

theorem mapped_addFrame {f : MapFrame} {a : Unit} (h : u.2.Mapped u.1.1)
    (e : Ends (addFrame f) u a v) : v.2.Mapped v.1.1 := by
  replace e := ends_get_bind.1 e
  split at e
  next before hbefore =>
    replace e := ends_get_bind.1 e
    obtain ⟨_, w, hput, e⟩ := e.bind
    obtain ⟨b, hput, hw⟩ := ends_onStackMap hput
    obtain ⟨_, w', hcount, e⟩ := e.bind
    have hsame : Quiet u.1 w.1 := hput.keeps
    obtain rfl := hcount.modify
    obtain rfl := e.modify
    refine h.adds hsame.grows.onward (fun _ => ?_) ?_
    · rw [hw]
      exact MapFrame.adds_put hput
    · rw [hw]
  next =>
    obtain rfl := e.modify
    exact h.congr (Steps.refl u.1.1) rfl

theorem ends_itemOf {i : FrameItem LabelId} {is : List MapItem} {s t : Pool × Session}
    (ht : t.1.failure = none) (e : Ends (itemOf i) s is t) : ∃ item, is = [item] := by
  cases i with
  | number n =>
    obtain ⟨rfl, -⟩ := e.pure
    exact ⟨_, rfl⟩
  | name text =>
    obtain ⟨_, _, -, e⟩ := e.bind
    obtain ⟨rfl, -⟩ := e.pure
    exact ⟨_, rfl⟩
  | created l =>
    obtain ⟨_, _, -, e⟩ := e.bind
    obtain ⟨_, _, -, e⟩ := e.bind
    obtain ⟨rfl, -⟩ := e.pure
    exact ⟨_, rfl⟩
  | invalid =>
    obtain ⟨_, w, h, e⟩ := e.bind
    obtain ⟨-, rfl⟩ := e.pure
    obtain ⟨h, -⟩ := h.lift
    rw [← PoolM.ends_fail.1 h] at ht
    exact absurd ht (Pool.recordFailure_ne_none _ _)

theorem length_itemsOf {is : List (FrameItem LabelId)} {items : List MapItem} {s t : Pool × Session}
    (ht : t.1.failure = none) (e : Ends (itemsOf is) s items t) : items.length = is.length := by
  induction is generalizing s t items with
  | nil =>
    obtain ⟨rfl, -⟩ := e.pure
    rfl
  | cons i is ih =>
    obtain ⟨first, s₁, h₁, e⟩ := e.bind
    obtain ⟨rest, s₂, h₂, e⟩ := e.bind
    obtain ⟨rfl, rfl⟩ := e.pure
    have hsame : Quiet s₁ s₂ := h₂.keeps
    obtain ⟨item, rfl⟩ := ends_itemOf (hsame.grows.onward.no_failure ht) h₁
    rw [singleton_append, length_cons, length_cons, ih ht h₂]

/-- What a frame in compressed form does to the stack map, before it is counted. -/
structure Compresses (u : (Pool × Session) × Method) (taken : Bool)
    (v : (Pool × Session) × Method) : Prop where
  onward : u.1.1.Onward v.1.1
  count : v.2.frameCount = u.2.frameCount
  adds : taken = true → v.1.1.failure = none →
    AddsFrame (u.2.stackMap.getD {}) (v.2.stackMap.getD {})
  leaves : taken = false → v.2.mapping = u.2.mapping

variable {taken : Bool}

theorem compresses_failFrame {reason : String}
    (e : Ends (do failFrame reason; return false : MethodM Bool) u taken v) :
    Compresses u taken v := by
  obtain ⟨_, w, h, e⟩ := e.bind
  obtain ⟨rfl, rfl⟩ := e.pure
  obtain ⟨h, hm⟩ := h.lift
  have hsame : Quiet u.1 w.1 := h.keeps
  exact ⟨hsame.grows.onward, by rw [hm], nofun, fun _ => by rw [hm]⟩

theorem compresses_onStackMap {f : Buffer → SessionM Buffer} [∀ b, Keeps Quiet (f b)]
    (e : Ends (do onStackMap f; return true : MethodM Bool) u taken v)
    (hf : ∀ b b' s t, t.1.failure = none → Ends (f b) s b' t → AddsFrame b b') :
    Compresses u taken v := by
  obtain ⟨_, w, h, e⟩ := e.bind
  obtain ⟨rfl, rfl⟩ := e.pure
  obtain ⟨b, h, hm⟩ := ends_onStackMap h
  have hsame : Quiet u.1 w.1 := h.keeps
  refine ⟨hsame.grows.onward, by rw [hm], fun _ hw => ?_, nofun⟩
  rw [hm]
  exact hf _ _ _ _ hw h

theorem compresses_noted {g : Method → Method} {act : MethodM Bool}
    (e : Ends (do modify g; act) u taken v)
    (hg : ∀ m, (g m).stackMap = m.stackMap ∧ (g m).frameCount = m.frameCount)
    (hact : ∀ w, Ends act w taken v → Compresses w taken v) : Compresses u taken v := by
  replace e := ends_modify_bind.1 e
  obtain ⟨hmap, hcount⟩ := hg u.2
  have hrest := hact _ e
  exact ⟨hrest.onward, hrest.count.trans hcount, fun ht hv => hmap ▸ hrest.adds ht hv, fun ht => by
    rw [hrest.leaves ht, Method.mapping, hmap, hcount, Method.mapping]⟩

theorem compresses_putCompressed {distance : Int}
    (e : Ends (putCompressed kind distance locals stack) u taken v) : Compresses u taken v := by
  unfold putCompressed at e
  dsimp only at e
  split at e
  · refine compresses_noted e (fun _ => ⟨rfl, rfl⟩) fun w e => ?_
    refine compresses_onStackMap e fun b b' s t ht e => ?_
    obtain ⟨ls, s₁, h₁, e⟩ := e.bind
    obtain ⟨ss, s₂, h₂, e⟩ := e.bind
    obtain ⟨rfl, rfl⟩ := e.pure
    have hsame : Quiet s₁ s₂ := h₂.keeps
    have hls := length_itemsOf (hsame.grows.onward.no_failure ht) h₁
    have hss := length_itemsOf ht h₂
    refine ⟨_, .full distance ls ss, ?_⟩
    simp [toList_putAll, counted, hls, hss, bytes16]
  · split at e
    · split at e
      · exact compresses_failFrame e
      next hn =>
        refine compresses_noted e (fun _ => ⟨rfl, rfl⟩) fun w e => ?_
        refine compresses_onStackMap e fun b b' s t ht e => ?_
        obtain ⟨ls, s₁, h₁, e⟩ := e.bind
        obtain ⟨rfl, rfl⟩ := e.pure
        have hls := length_itemsOf ht h₁
        refine ⟨_, .appended distance ls (by omega), ?_⟩
        simp [toList_putAll, hls, bytes16]
    · split at e
      · split at e
        · exact compresses_failFrame e
        next hn =>
          refine compresses_noted e (fun _ => ⟨rfl, rfl⟩) fun w e => ?_
          refine compresses_onStackMap e fun b b' s t ht e => ?_
          obtain ⟨rfl, rfl⟩ := e.pure
          exact ⟨_, .chopped locals.length distance (by omega), toList_putTagged _ _ _⟩
      · split at e
        · refine compresses_onStackMap e fun b b' s t ht e => ?_
          obtain ⟨rfl, rfl⟩ := e.pure
          split
          · exact ⟨_, .same distance, toList_putByte _ _⟩
          · exact ⟨_, .sameFar distance, toList_putTagged _ _ _⟩
        · split at e
          · split at e
            · exact compresses_failFrame e
            next i _ =>
              refine compresses_onStackMap e fun b b' s t ht e => ?_
              obtain ⟨is, s₁, h₁, e⟩ := e.bind
              obtain ⟨rfl, rfl⟩ := e.pure
              obtain ⟨item, rfl⟩ := ends_itemOf ht h₁
              split
              · exact ⟨_, .sameWith distance item, by simp [toList_putAll]⟩
              · exact ⟨_, .sameFarWith distance item, by simp [toList_putAll, bytes16]⟩
          · exact compresses_failFrame e

theorem mapped_putCompressed {distance : Int} {size : Nat}
    (e : Ends (putCompressed kind distance locals stack >>= fun taken =>
      if taken then do
        modify fun m => { m with previousOffset := size, frameCount := m.frameCount + 1 }
        pure taken
      else pure taken : MethodM Bool) u taken v)
    (h : u.2.Mapped u.1.1) : v.2.Mapped v.1.1 := by
  obtain ⟨t, w, hput, e⟩ := e.bind
  have hw := compresses_putCompressed hput
  cases t with
  | true =>
    obtain ⟨_, x, hcount, e⟩ := e.bind
    obtain ⟨-, rfl⟩ := e.pure
    obtain rfl := hcount.modify
    exact h.adds hw.onward (fun hfail => hw.adds rfl hfail) (by rw [← hw.count])
  | false =>
    obtain ⟨-, rfl⟩ := e.pure
    exact h.congr hw.onward (hw.leaves rfl)

theorem mapped_compressedFrame (h : u.2.Mapped u.1.1)
    (e : Ends (compressedFrame kind locals stack) u taken v) : v.2.Mapped v.1.1 := by
  obtain ⟨size, w, hsize, e⟩ := e.bind
  obtain rfl : u = w := by
    obtain ⟨_, _, hget, hsize⟩ := hsize.bind
    obtain ⟨-, rfl⟩ := ends_get.1 hget
    exact hsize.pure.2
  replace e := ends_get_bind.1 e
  replace e := ends_get_bind.1 e
  dsimp only at e
  generalize (if u.2.stackMap.isNone = true then (size : Int)
    else size - u.2.previousOffset - 1) = distance at e
  split at e
  · split at e
    · obtain ⟨-, rfl⟩ := e.pure
      exact h
    · obtain ⟨_, w, hfail, e⟩ := e.bind
      obtain ⟨-, rfl⟩ := e.pure
      obtain ⟨hfail, hm⟩ := hfail.lift
      have hsame : Quiet u.1 w.1 := hfail.keeps
      exact h.congr hsame.grows.onward (by rw [hm])
  · split at e
    next hnone =>
      replace e := ends_modify_bind.1 e
      -- the buffer that is set up is as empty as none
      refine mapped_putCompressed e (h.congr (Steps.refl u.1.1) ?_)
      simp [Method.mapping, Option.isNone_iff_eq_none.1 hnone]
    next => exact mapped_putCompressed e h

end MethodM

end ClassAssembler
