import ClassAssembler.Proofs.GivenFrames
import Mathlib

/-!
# Explicit frames are recorded as given

Expanded frames are kept as types and compared with the frame before when they are written; changes
are written as they are given.  Both draw up the stack map frame by frame (`Method.Expanding`,
`Method.Changing`), but each looks at its own note of the last frame.  So reading the stack map
gives the denoted frames if all of them are expanded, or if none is and the class has a version from
50 on (`Method.readFrames_of_visits`).
-/

namespace ClassAssembler

open TableFrame FrameItem FrameEvent Option

set_option synthInstance.maxSize 400

open Buffer MapItem

namespace Method

open MethodM

variable {taken : Bool} {e : FrameEvent LabelId} {f : TableFrame}

/-! ## Expanded frames -/

structure Opening (t : MethodType) (start : List (FrameItem Int)) (u : State) : Prop where
  unmapped : u.2.Unmapped
  pool : u.1.1.Wf { counted := False }
  desc : u.2.desc = t.desc
  dims : 50 ≤ u.1.2.major → ∀ p ∈ t.parameters, p.dims ≤ 15
  start : start = u.2.receiverItems u.1.2.thisName ++ t.parameters.map FieldType.item

structure Expanding (types : TypeTable) (t : MethodType) (start : List (FrameItem Int)) (u : State)
    (gs : List TableFrame) : Prop where
  wf : u.1.2.types.Wf
  stage : Opening t start u ∧ gs = [] ∨ Draft types start u gs

variable {types : TypeTable} {t : MethodType} {start : List (FrameItem Int)} {u v : State}
  {gs : List TableFrame}

theorem Opening.aside (h : Opening t start u) (ha : Aside u v) : Opening t start v := by
  have hheader := header_of_chart ha.chart
  refine ⟨h.unmapped.congr ha.chart, (ha.pool h.pool).1, ?_, ?_, ?_⟩
  · exact (congrArg Method.desc hheader : v.2.header.desc = u.2.header.desc).trans h.desc
  · rw [major_of_setting ha.setting]
    exact h.dims
  · rw [h.start, receiverItems_congr hheader ha.setting]

theorem Unmapped.charted (hu : u.2.Unmapped) (hp : u.1.1.Wf { counted := False })
    (hdesc : u.2.desc = t.desc) :
    Charted (u.2.receiverItems u.1.2.thisName ++ t.parameters.map FieldType.item) u [] := by
  refine ⟨hp, entryItems_eq hdesc _, ?_, hu.count, fun _ => rfl, by decide⟩
  rw [hu.stackMap]
  exact .nil

theorem Expanding.charted (h : Expanding types t start u gs) : Charted start u gs := by
  rcases h.stage with ⟨hopening, rfl⟩ | hdraft
  · rw [hopening.start]
    exact hopening.unmapped.charted hopening.pool hopening.desc
  · exact hdraft.toCharted

theorem Expanding.aside (h : Expanding types t start u gs) (ha : Aside u v) :
    Expanding types t start v gs := by
  refine ⟨ha.types.wf h.wf, ?_⟩
  rcases h.stage with ⟨hopening, rfl⟩ | hdraft
  · exact .inl ⟨hopening.aside ha, rfl⟩
  · exact .inr (hdraft.aside ha)

theorem Expanding.open (h : Expanding types t start u gs) (htypes : v.1.2.types.Grows types)
    (e : Ends (if u.2.previousFrame.isNone then addEntryFrame else pure ()) u () v) :
    Draft types start v gs := by
  rcases h.stage with ⟨hopening, rfl⟩ | hdraft
  · rw [hopening.unmapped.before] at e
    have hdraft := (OpensMap.entry e).draft hopening.unmapped hopening.pool h.wf hopening.desc
      hopening.dims htypes
    rwa [← hopening.start] at hdraft
  · obtain ⟨b, hb, -⟩ := hdraft.before
    rw [hb] at e
    obtain ⟨-, rfl⟩ := e.pure
    exact hdraft

theorem Expanding.frame {locals stack : List (FrameItem LabelId)}
    (h : Expanding types t start u gs) (htypes : v.1.2.types.Grows types)
    (hfail : v.1.1.failure = none)
    (hvalid : ∀ x ∈ locals.map (placed u.1.2) ++ stack.map (placed u.1.2),
      x.Valid ∧ x.Shallow)
    (hfits : TableFrame.Fits ⟨u.2.code.size, locals.map (placed u.1.2),
      stack.map (placed u.1.2)⟩)
    (hafter : lastOffset (-1) gs < u.2.code.size)
    (e : Ends (expandedFrame locals stack) u () v) :
    Expanding types t start v (gs ++ [⟨u.2.code.size, locals.map (placed u.1.2),
      stack.map (placed u.1.2)⟩]) := by
  obtain ⟨hlocals, hstack⟩ := List.forall_mem_append.1 hvalid
  replace e := ends_get_bind.1 e
  obtain ⟨u₁, hopen, e⟩ := ends_when.1 e
  have hopened : Drafts u u₁ := hopen.keeps
  have hrest : Drafts u₁ v := e.keeps
  have hdraft := h.open (Steps.trans hrest.same.types htypes) hopen
  replace e := ends_modify_bind.1 e
  obtain ⟨n, _, hn, e⟩ := e.bind
  obtain ⟨rfl, rfl⟩ := ends_codeSize.1 hn
  obtain ⟨ls, u₃, hls, e⟩ := e.bind
  obtain ⟨ss, u₄, hss, e⟩ := e.bind
  obtain ⟨hls, hm₃⟩ := hls.lift
  obtain ⟨hss, hm₄⟩ := hss.lift
  have hsame : Quiet u₁.1 u₃.1 := hls.keeps
  have hsame' : Quiet u₃.1 u₄.1 := hss.keeps
  have hput : Drafts u₄ v := e.keeps
  have hside : Aside u₁ u₄ := by
    refine ⟨grown_of_sameCode u₁.2 u₄.2 (Steps.trans hsame hsame'), ?_⟩
    rw [← hm₄, ← hm₃]
    rfl
  have hplaced₁ : placed u₁.1.2 = placed u.1.2 :=
    funext (placed_congr hopened.same.spot)
  have hplaced₃ : placed u₃.1.2 = placed u.1.2 :=
    (funext (placed_congr hsame.spot)).trans hplaced₁
  have hwf₁ := hopened.same.types.wf h.wf
  have hfail₄ := hput.same.grows.onward.no_failure hfail
  have hnames := names_itemTypes hdraft.pool hwf₁ (hsame'.grows.onward.no_failure hfail₄)
    (by rw [hplaced₁]; exact fun x hx => (hlocals x hx).1)
    (by rw [hplaced₁]; exact fun x hx => (hlocals x hx).2) hls
  have hnames' := names_itemTypes (hsame.grows hdraft.pool).1 (hsame.types.wf hwf₁) hfail₄
    (by rw [hplaced₃]; exact fun x hx => (hstack x hx).1)
    (by rw [hplaced₃]; exact fun x hx => (hstack x hx).2) hss
  rw [hplaced₁] at hnames
  rw [hplaced₃] at hnames'
  have hgrows : u₄.1.2.types.Grows types := Steps.trans hput.same.types htypes
  have hcode : u₁.2.code = u.2.code := code_of_core hopened.core
  refine ⟨hput.same.types.wf (hside.types.wf hwf₁), .inr ?_⟩
  refine (hdraft.aside hside).frame htypes hfail ⟨?_, ?_, ?_⟩ hfits hafter e
  · exact congrArg (fun b : Buffer => (b.size : Int)) hcode.symm
  · exact hnames.mono (Steps.trans hsame'.types hgrows)
  · exact hnames'.mono hgrows

/-! ## Frames as changes -/

/-- A frame is appended in a form that is read behind certain local variables. -/
def Puts (p : Pool) (before : List (FrameItem Int)) (f : TableFrame) (b b' : Buffer) : Prop :=
  ∃ row, b'.toList = b.toList ++ row ∧ TableFrame.Spells p before row f

section

variable {s s' : Pool × Session} {b b' : Buffer} {distance : Int} {before : List (FrameItem Int)}
  {locals stack : List (FrameItem LabelId)}

theorem puts_full (hp : s.1.Wf { counted := False }) (hfail : s'.1.failure = none)
    (hlow : 0 ≤ distance) (hhigh : distance ≤ 65535)
    (hlocals : ∀ x ∈ locals.map (placed s.2), x.Valid)
    (hstack : ∀ x ∈ stack.map (placed s.2), x.Valid)
    (hlocal : locals.length ≤ 65535) (hdepth : stack.length ≤ 65535)
    (e : Ends (do
      let ls ← itemsOf locals
      let ss ← itemsOf stack
      let b := MapItem.putAll ((b.putTagged 255 distance).putShort locals.length) ls
      return MapItem.putAll (b.putShort stack.length) ss : SessionM Buffer) s b' s') :
    Puts s'.1 before ⟨distance, locals.map (placed s.2), stack.map (placed s.2)⟩
      b b' := by
  obtain ⟨ls, s₁, hls, e⟩ := e.bind
  obtain ⟨ss, s₂, hss, e⟩ := e.bind
  obtain ⟨rfl, rfl⟩ := e.pure
  have hsame : Quiet s s₁ := hls.keeps
  have hsame' : Quiet s₁ s₂ := hss.keeps
  obtain ⟨hp₁, -⟩ := hsame.grows hp
  obtain ⟨-, hext⟩ := hsame'.grows hp₁
  have hplaced : placed s₁.2 = placed s.2 :=
    funext (placed_congr hsame.spot)
  have hstands := stands_itemsOf hp (hext.no_failure hfail) hlocals hls
  have hstands' := stands_itemsOf hp₁ hfail (by rw [hplaced]; exact hstack) hss
  rw [hplaced] at hstands'
  refine ⟨_, ?_, .full hlow hhigh (hstands.imp fun _ _ h => h.mono hext) hstands' (by simpa)
    (by simpa)⟩
  have hls := hstands.length_eq
  have hss := hstands'.length_eq
  rw [List.length_map] at hls hss
  simp [MapItem.toList_putAll, MapItem.counted, hls, hss, bytes16]

theorem puts_append (hp : s.1.Wf { counted := False }) (hfail : s'.1.failure = none)
    (hlow : 0 ≤ distance) (hhigh : distance ≤ 65535)
    (hlocals : ∀ x ∈ locals.map (placed s.2), x.Valid) (hthree : locals.length ≤ 3)
    (e : Ends (do
      return MapItem.putAll (b.putTagged (251 + locals.length) distance) (← itemsOf locals) :
        SessionM Buffer) s b' s') :
    Puts s'.1 before ⟨distance, before ++ locals.map (placed s.2), []⟩ b b' := by
  obtain ⟨ls, s₁, hls, e⟩ := e.bind
  obtain ⟨rfl, rfl⟩ := e.pure
  have hstands := stands_itemsOf hp hfail hlocals hls
  have hlength := hstands.length_eq
  rw [List.length_map] at hlength
  refine ⟨_, ?_, .appended hlow hhigh (hlength ▸ hthree) hstands⟩
  simp [MapItem.toList_putAll, hlength, bytes16]

theorem puts_same {p : Pool} (hlow : 0 ≤ distance) (hhigh : distance ≤ 65535) :
    Puts p before ⟨distance, before, []⟩ b
      (if distance < 64 then b.putByte distance else b.putTagged 251 distance) := by
  split
  next hnear => exact ⟨_, toList_putByte b distance, .same hlow hnear⟩
  next => exact ⟨_, toList_putTagged b 251 distance, .sameFar hlow hhigh⟩

theorem puts_same1 {i : FrameItem LabelId} (hp : s.1.Wf { counted := False })
    (hfail : s'.1.failure = none) (hlow : 0 ≤ distance) (hhigh : distance ≤ 65535)
    (hi : (i.placed s.2).Valid)
    (e : Ends (do
      let items ← itemOf i
      let b := if distance < 64 then b.putByte (64 + distance) else b.putTagged 247 distance
      return MapItem.putAll b items : SessionM Buffer) s b' s') :
    Puts s'.1 before ⟨distance, before, [i.placed s.2]⟩ b b' := by
  obtain ⟨items, s₁, hitems, e⟩ := e.bind
  obtain ⟨rfl, rfl⟩ := e.pure
  obtain ⟨item, rfl, hstands⟩ := stands_itemOf hp hfail hi hitems
  split
  next hnear => exact ⟨_, by simp [MapItem.toList_putAll], .sameWith hlow hnear hstands⟩
  next => exact ⟨_, by simp [MapItem.toList_putAll, bytes16], .sameFarWith hlow hhigh hstands⟩

end

theorem ends_putOn {act : Buffer → SessionM Buffer}
    (e : Ends (do onStackMap act; return true : MethodM Bool) u taken v) :
    taken = true ∧ ∃ b, v.2.stackMap = some b ∧ Ends (act (u.2.stackMap.getD {})) u.1 b v.1 := by
  obtain ⟨_, w, h, e⟩ := e.bind
  obtain ⟨rfl, rfl⟩ := e.pure
  obtain ⟨b, h, hm⟩ := ends_onStackMap h
  exact ⟨rfl, b, by rw [hm], h⟩

theorem not_failFrame {reason : String} (hfail : v.1.1.failure = none)
    (e : Ends (do failFrame reason; return false : MethodM Bool) u taken v) : False := by
  obtain ⟨_, w, h, e⟩ := e.bind
  obtain ⟨-, rfl⟩ := e.pure
  exact failure_of_fail h hfail

theorem puts_putCompressed {kind distance : Int} {locals stack : List (FrameItem LabelId)}
    {offset : Nat} {before : List (FrameItem Int)} (hp : u.1.1.Wf { counted := False })
    (hfail : v.1.1.failure = none) (hlow : 0 ≤ distance) (hhigh : distance ≤ 65535)
    (hkind : kind ≠ expanded)
    (hframe : GivenFrame.frame? before ⟨kind, offset, locals.map (placed u.1.2),
      stack.map (placed u.1.2)⟩ = some f)
    (hvalid : ∀ x ∈ GivenFrame.listed ⟨kind, offset, locals.map (placed u.1.2),
      stack.map (placed u.1.2)⟩, x.Valid)
    (hfits : f.Fits) (e : Ends (putCompressed kind distance locals stack) u taken v) :
    taken = true ∧ ∃ b, v.2.stackMap = some b ∧
      Puts v.1.1 before { f with offset := distance } (u.2.stackMap.getD {}) b := by
  unfold putCompressed at e
  unfold GivenFrame.frame? at hframe
  unfold GivenFrame.listed at hvalid
  dsimp only at e hframe hvalid
  split at e
  next hfull =>
    rw [if_pos (.inr hfull)] at hframe hvalid
    obtain rfl := some.inj hframe
    obtain ⟨hlocals, hstack⟩ := List.forall_mem_append.1 hvalid
    obtain ⟨_, w, hnote, e⟩ := e.bind
    obtain rfl := hnote.modify
    obtain ⟨rfl, b, hb, e⟩ := ends_putOn e
    exact ⟨rfl, b, hb, puts_full hp hfail hlow hhigh hlocals hstack
      (by simpa using hfits.locals) (by simpa using hfits.stack) e⟩
  next hfull =>
    rw [if_neg (not_or.2 ⟨hkind, hfull⟩)] at hframe hvalid
    split at e
    next happend =>
      rw [if_pos happend] at hframe hvalid
      obtain rfl := some.inj hframe
      split at e
      · exact (not_failFrame hfail e).elim
      next hn =>
        replace e := ends_modify_bind.1 e
        obtain ⟨rfl, b, hb, e⟩ := ends_putOn e
        exact ⟨rfl, b, hb, puts_append hp hfail hlow hhigh hvalid (by omega) e⟩
    next happend =>
      rw [if_neg happend] at hframe hvalid
      split at e
      next hchop =>
        rw [if_pos hchop] at hframe
        split at hframe
        next hle =>
          obtain rfl := some.inj hframe
          split at e
          · exact (not_failFrame hfail e).elim
          next hn =>
            replace e := ends_modify_bind.1 e
            obtain ⟨rfl, b, hb, e⟩ := ends_putOn e
            obtain ⟨rfl, -⟩ := e.pure
            rw [List.length_map] at hle
            refine ⟨rfl, _, hb, _, toList_putTagged .., ?_⟩
            rw [List.length_map]
            exact .chopped hlow hhigh (by omega) (by omega) hle
        next => cases hframe
      next hchop =>
        rw [if_neg hchop] at hframe
        split at e
        next hsame =>
          rw [if_pos hsame] at hframe
          obtain rfl := some.inj hframe
          obtain ⟨rfl, b, hb, e⟩ := ends_putOn e
          obtain ⟨rfl, -⟩ := e.pure
          exact ⟨rfl, _, hb, puts_same hlow hhigh⟩
        next hsame =>
          rw [if_neg hsame] at hframe
          split at e
          next hsame1 =>
            rw [if_pos hsame1] at hframe hvalid
            split at e
            · exact (not_failFrame hfail e).elim
            next i rest =>
              obtain rfl := some.inj hframe
              obtain ⟨rfl, b, hb, e⟩ := ends_putOn e
              exact ⟨rfl, b, hb, puts_same1 hp hfail hlow hhigh (hvalid _ (by simp)) e⟩
          next => exact (not_failFrame hfail e).elim

structure Changing (start : List (FrameItem Int)) (u : State) (gs : List TableFrame) : Prop
    extends Charted start u gs where
  isNew : 50 ≤ u.1.2.major
  link : u.2.stackMap = none ∨ u.2.previousOffset = lastOffset (-1) gs

theorem Changing.passes (h : Changing start u gs) (hv : Passes u v) : Changing start v gs := by
  refine ⟨h.toCharted.aside hv.toAside, ?_, ?_⟩
  · rw [major_of_setting hv.setting]
    exact h.isNew
  · rw [hv.previous, stackMap_of_chart hv.chart]
    exact h.link

theorem Changing.frame {kind : Int} {locals stack : List (FrameItem LabelId)} {taken : Bool}
    {f : TableFrame} (h : Changing start u gs) (hfail : v.1.1.failure = none)
    (hkind : kind ≠ expanded)
    (hframe : GivenFrame.frame? (lastLocals start gs) ⟨kind, u.2.code.size,
      locals.map (placed u.1.2), stack.map (placed u.1.2)⟩ = some f)
    (hvalid : ∀ x ∈ GivenFrame.listed ⟨kind, u.2.code.size, locals.map (placed u.1.2),
      stack.map (placed u.1.2)⟩, x.Valid) (hfits : f.Fits)
    (hafter : lastOffset (-1) gs < u.2.code.size)
    (e : Ends (compressedFrame kind locals stack) u taken v) :
    taken = true ∧ Changing start v (gs ++ [f]) := by
  have hoffset : f.offset = u.2.code.size := GivenFrame.offset_frame? hframe
  obtain ⟨n, _, hn, e⟩ := e.bind
  obtain ⟨rfl, rfl⟩ := ends_codeSize.1 hn
  replace e := ends_get_bind.1 e
  replace e := ends_get_bind.1 e
  dsimp only at e
  have hdistance : (if u.2.stackMap.isNone = true then (u.2.code.size : Int)
      else u.2.code.size - u.2.previousOffset - 1) =
      u.2.code.size - lastOffset (-1) gs - 1 := by
    split
    next hnone =>
      rw [h.begun (isNone_iff_eq_none.1 hnone)]
      show (u.2.code.size : Int) = u.2.code.size - -1 - 1
      omega
    next hsome =>
      rw [h.link.resolve_left fun hnone => hsome (by rw [hnone]; rfl)]
  rw [hdistance, if_neg (by omega)] at e
  obtain ⟨w, hset, e⟩ := ends_when.1 e
  have hw : w.1 = u.1 ∧ w.2.core = u.2.core ∧ w.2.mapping = u.2.mapping := by
    split at hset
    next hnone =>
      obtain rfl := hset.modify
      refine ⟨rfl, rfl, ?_⟩
      rw [mapping, mapping, isNone_iff_eq_none.1 hnone]
      rfl
    next =>
      obtain ⟨-, rfl⟩ := hset.pure
      exact ⟨rfl, rfl, rfl⟩
  obtain ⟨hsession, hcore, hmapping⟩ := hw
  obtain ⟨hbytes, hcount⟩ := Prod.mk.inj hmapping
  obtain ⟨t, x, hput, e⟩ := e.bind
  have hx : x.1 = v.1 := by
    split at e
    · obtain ⟨_, y, hnote, e⟩ := e.bind
      obtain ⟨-, rfl⟩ := e.pure
      obtain rfl := hnote.modify
      rfl
    · obtain ⟨-, rfl⟩ := e.pure
      rfl
  have hdrafts : Drafts w x := hput.keeps
  have hcounted := (compresses_putCompressed hput).count
  have hlow := h.low
  have hhigh := hfits.offset
  rw [← hsession] at hframe hvalid
  obtain ⟨rfl, b, hb, row, hrow, hspells⟩ := puts_putCompressed (hsession ▸ h.pool) (hx ▸ hfail)
    (by omega) (by omega) hkind hframe hvalid hfits hput
  obtain ⟨_, y, hnote, e⟩ := e.bind
  obtain ⟨rfl, rfl⟩ := e.pure
  obtain rfl := hnote.modify
  have hsame : Quiet u.1 x.1 := hsession ▸ hdrafts.same
  have hbehind : behind (-1) gs
      { f with offset := u.2.code.size - lastOffset (-1) gs - 1 } = f := by
    rw [TableFrame.behind, TableFrame.mk.injEq]
    refine ⟨?_, rfl, rfl⟩
    show lastOffset (-1) gs + (u.2.code.size - lastOffset (-1) gs - 1) + 1 = _
    omega
  have hcore' : x.2.core = u.2.core := hdrafts.core.trans hcore
  refine ⟨rfl, h.toCharted.adds hsame ?_ ?_ ?_ ?_ hfits.nonneg, ?_, .inr ?_⟩
  · exact (congrArg header (record_of_core hcore') : x.2.record.header = u.2.record.header)
  · show TableFrame.Drawn x.1.1 _ start (x.2.stackMap.getD {}).toList (gs ++ [f])
    rw [hb, ← hbehind]
    show TableFrame.Drawn x.1.1 _ start b.toList _
    rw [hrow, hbytes]
    have hold : decide (u.1.2.major < 50) = false := decide_eq_false (Int.not_lt.2 h.isNew)
    exact .difference hold (h.drawn.mono (hsame.grows h.pool).2) hspells
  · show x.2.frameCount + 1 = u.2.frameCount + 1
    rw [hcounted, hcount]
  · show x.2.stackMap ≠ none
    rw [hb]
    exact some_ne_none _
  · rw [major_of_setting hsame.setting]
    exact h.isNew
  · rw [lastOffset_append]
    exact hoffset.symm

/-! ## Runs -/

/-- The last frame is noted, and the code has not gone back behind it. -/
structure Recorded (u : State) (gs : List TableFrame) : Prop where
  last : u.2.lastFrameOffset.map Int.ofNat = gs.getLast?.map offset
  below : lastOffset (-1) gs ≤ u.2.code.size

theorem Recorded.passes (h : Recorded u gs) (hv : Passes u v) : Recorded v gs := by
  refine ⟨?_, Int.le_trans h.below (Int.ofNat_le.2 hv.size)⟩
  rw [hv.last]
  exact h.last

theorem Recorded.lt (h : Recorded u gs) (hlast : u.2.lastFrameOffset ≠ some u.2.code.size) :
    lastOffset (-1) gs < u.2.code.size := by
  refine lt_of_le_of_ne h.below fun heq => hlast ?_
  cases hg : gs.getLast? with
  | none =>
    rw [lastOffset, hg] at heq
    exact absurd heq (by show (-1 : Int) ≠ _; omega)
  | some g =>
    rw [lastOffset, hg] at heq
    have hlast := h.last
    rw [hg, map_some, map_eq_some_iff] at hlast
    obtain ⟨o, ho, hoffset⟩ := hlast
    have hsize : o = u.2.code.size := Int.ofNat.inj (hoffset.trans heq)
    rw [ho, hsize]

theorem Recorded.accepts (hv : Accepts u e v) (hoffset : f.offset = u.2.code.size) :
    Recorded v (gs ++ [f]) := by
  have hdrafts := hv.drafts
  refine ⟨?_, ?_⟩
  · rw [hdrafts.lastOffset, List.getLast?_append_of_ne_nil _ (by simp)]
    exact congrArg some hoffset.symm
  · rw [lastOffset_append, hoffset, (code_of_core hdrafts.core : v.2.code = u.2.code)]

theorem Records.ne_frames {m : Method} (h : m.Records) : m.compute ≠ .frames := by
  rcases h with h | h <;> rw [h] <;> decide

instance calm_takeFrame (f : FrameEvent LabelId) :
    Keeps (Calm fun _ => True) (take (.frame f)) := by
  unfold take isInCode isLive
  infer_instance

theorem grows_take {event : CodeEvent LabelId} (hu : u.2.Records)
    (hp : u.1.1.Wf { counted := False }) (e : Ends (take event) u () v) :
    v.2.Records ∧ v.1.1.Wf { counted := False } ∧ u.1.1.Extends v.1.1 := by
  by_cases hevent : ∃ f, event = .frame f
  · obtain ⟨f, rfl⟩ := hevent
    have hcalm : Calm (fun _ => True) u v := e.keeps
    have hcompute : v.2.compute = u.2.compute :=
      (congrArg Method.compute hcalm.core : v.2.core.compute = u.2.core.compute)
    exact ⟨by rw [Records, hcompute]; exact hu, hcalm.grows hp⟩
  · have hpasses := passes_take (fun f hf => hevent ⟨f, hf⟩) hu.ne_frames e
    exact ⟨by rw [Records, hpasses.compute]; exact hu, hpasses.pool hp⟩

theorem Visits.grows {es : List (CodeEvent LabelId)} {given : List GivenFrame} {w : State}
    (h : Visits u es given w) (hu : u.2.Records) (hp : u.1.1.Wf { counted := False })
    (hfail : w.1.1.failure = none) :
    u.1.1.failure = none ∧ u.1.2.types.Grows w.1.2.types := by
  induction h with
  | done u => exact ⟨hfail, Steps.refl _⟩
  | @step u v w event es given htake _ ih =>
    obtain ⟨hv, hp', hext⟩ := grows_take hu hp htake
    obtain ⟨hfail', htypes⟩ := ih hv hp' hfail
    refine ⟨hext.no_failure hfail', Steps.trans ?_ htypes⟩
    by_cases hevent : ∃ f, event = .frame f
    · obtain ⟨f, rfl⟩ := hevent
      rcases accepts_of_take hu hfail' htake with ⟨-, -, rfl⟩ | ⟨-, haccepts⟩
      · exact Steps.refl _
      · exact haccepts.drafts.same.types
    · exact (passes_take (fun f hf => hevent ⟨f, hf⟩) hu.ne_frames htake).types

/-- A property of methods and their frames that other work leaves alone, and that every frame adds
to, holds at the end of a run. -/
theorem Visits.records {I : State → List TableFrame → Prop} {K : GivenFrame → Prop}
    {es : List (CodeEvent LabelId)} {given : List GivenFrame} {fs : List TableFrame} {w : State}
    (hcharted : ∀ {u gs}, I u gs → Charted start u gs)
    (hpasses : ∀ {u v gs}, I u gs → Passes u v → I v gs)
    (haccepts : ∀ {u v gs e f}, I u gs → Accepts u e v → K (e.given u) → v.1.1.failure = none →
      v.1.2.types.Grows types → lastOffset (-1) gs < u.2.code.size →
      (e.given u).frame? (lastLocals start gs) = some f → f.Fits → I v (gs ++ [f]))
    (h : Visits u es given w) (hu : I u gs) (hrecorded : Recorded u gs) (hmode : u.2.Records)
    (hfail : w.1.1.failure = none) (htypes : w.1.2.types.Grows types) (hgiven : ∀ g ∈ given, K g)
    (hframes : GivenFrame.frames? (lastLocals start gs)
      (gs.getLast?.map offset) given = some fs)
    (hfits : ∀ f ∈ fs, f.Fits) : I w (gs ++ fs) := by
  induction h generalizing gs fs with
  | done u =>
    obtain rfl := some.inj hframes
    rw [List.append_nil]
    exact hu
  | @step u v w event es given htake hrest ih =>
    obtain ⟨hmode', hp', -⟩ := grows_take hmode (hcharted hu).pool htake
    obtain ⟨hfail', hgrows⟩ := hrest.grows hmode' hp' hfail
    by_cases hevent : ∃ f, event = .frame f
    · obtain ⟨e, rfl⟩ := hevent
      obtain ⟨hK, hgiven⟩ := List.forall_mem_cons.1 hgiven
      change GivenFrame.frames? _ _ (e.given u :: given) = some fs at hframes
      rw [GivenFrame.frames?] at hframes
      rcases accepts_of_take hmode hfail' htake with ⟨hlast, hkind, rfl⟩ | ⟨hlast, hv⟩
      · rw [if_pos, if_pos] at hframes
        · exact ih hu hrecorded hmode' hfail htypes hgiven hframes hfits
        · exact hkind
        · rw [← hrecorded.last, hlast]
          rfl
      · rw [if_neg] at hframes
        · obtain ⟨f, hf, hframes⟩ := bind_eq_some_iff.1 hframes
          obtain ⟨fs', hfs', hframes⟩ := bind_eq_some_iff.1 hframes
          obtain rfl := some.inj hframes
          obtain ⟨hf_fits, hfits⟩ := List.forall_mem_cons.1 hfits
          have hstep := haccepts hu hv hK hfail' (Steps.trans hgrows htypes)
            (hrecorded.lt hlast) hf hf_fits
          have hrun := ih hstep (Recorded.accepts hv (GivenFrame.offset_frame? hf)) hmode' hfail
            htypes hgiven (by simpa using hfs') hfits
          rwa [List.append_assoc] at hrun
        · intro heq
          rw [← hrecorded.last] at heq
          obtain ⟨o, ho, hsize⟩ := map_eq_some_iff.1 heq
          exact hlast (ho.trans (congrArg some (Int.ofNat.inj hsize)))
    · have hv := passes_take (fun f hf => hevent ⟨f, hf⟩) hmode.ne_frames htake
      have hnone : event.given u = [] := by
        cases event with
        | frame f => exact absurd ⟨f, rfl⟩ hevent
        | _ => rfl
      rw [hnone] at hgiven hframes
      exact ih (hpasses hu hv) (hrecorded.passes hv) hmode' hfail htypes hgiven hframes hfits

theorem aside_noted (u : State) : Aside u (noted u) :=
  ⟨grown_of_sameCode _ _ (Steps.refl u.1), rfl⟩

instance passes_admitFrame (n : Int) : Keeps Passes (admitFrame n) := by
  unfold admitFrame
  infer_instance

theorem Expanding.accepts (h : Expanding types t start u gs) (hv : Accepts u e v)
    (hkind : (e.given u).kind = expanded) (hvalid : ∀ x ∈ (e.given u).listed, x.Valid ∧ x.Shallow)
    (hfail : v.1.1.failure = none) (htypes : v.1.2.types.Grows types)
    (hafter : lastOffset (-1) gs < u.2.code.size)
    (hframe : (e.given u).frame? (lastLocals start gs) = some f) (hfits : f.Fits) :
    Expanding types t start v (gs ++ [f]) := by
  rw [GivenFrame.frame?, if_pos (.inl hkind)] at hframe
  rw [GivenFrame.listed, if_pos (.inl hkind)] at hvalid
  obtain rfl := some.inj hframe
  cases hv with
  | expanded _ hx hadmit =>
    have hpasses : Passes _ v := hadmit.keeps
    have hdrafts : Drafts _ v := hadmit.keeps
    have hstep := (h.aside (aside_noted u)).frame (Steps.trans hpasses.types htypes)
      (hdrafts.same.grows.onward.no_failure hfail) hvalid hfits hafter hx
    exact hstep.aside hpasses.toAside
  | compressed hne _ _ => exact absurd hkind hne

theorem Changing.accepts (h : Changing start u gs) (hv : Accepts u e v)
    (hkind : (e.given u).kind ≠ expanded) (hvalid : ∀ x ∈ (e.given u).listed, x.Valid)
    (hfail : v.1.1.failure = none) (hafter : lastOffset (-1) gs < u.2.code.size)
    (hframe : (e.given u).frame? (lastLocals start gs) = some f) (hfits : f.Fits) :
    Changing start v (gs ++ [f]) := by
  cases hv with
  | expanded heq _ _ => exact absurd heq hkind
  | compressed _ hx hadmit =>
    have hnoted : Changing start (noted u) gs :=
      ⟨h.toCharted.aside (aside_noted u), h.isNew, h.link⟩
    have hdrafts : Drafts _ v := hadmit.keeps
    obtain ⟨rfl, hstep⟩ := hnoted.frame (hdrafts.same.grows.onward.no_failure hfail) hkind hframe
      hvalid hfits hafter hx
    exact hstep.passes hadmit.keeps

/-- Reading the stack map of a method gives the frames that the given ones denote, at the offsets
where they were given: if all of them are expanded, or if none is and changes can be written.  No
array may have more dimensions than a type can hold, where types are held. -/
theorem readFrames_of_visits {es : List (CodeEvent LabelId)} {given : List GivenFrame}
    {fs : List TableFrame} {w : State} (hu : u.2.Unmapped) (hlast : u.2.lastFrameOffset = none)
    (hmode : u.2.Records) (hp : u.1.1.Wf { counted := False }) (hwf : u.1.2.types.Wf)
    (hdesc : u.2.desc = t.desc) (h : Visits u es given w) (hfail : w.1.1.failure = none)
    (hkinds : (∀ g ∈ given, g.kind = expanded ∧ ∀ x ∈ g.listed, x.Shallow) ∧
        (50 ≤ u.1.2.major → ∀ p ∈ t.parameters, p.dims ≤ 15) ∨
      (∀ g ∈ given, g.kind ≠ expanded) ∧ 50 ≤ u.1.2.major)
    (hvalid : ∀ g ∈ given, ∀ x ∈ g.listed, x.Valid)
    (hframes : GivenFrame.frames?
      (u.2.receiverItems u.1.2.thisName ++ t.parameters.map FieldType.item) none given = some fs)
    (hfits : ∀ f ∈ fs, f.Fits) :
    w.2.readFrames w.1.1 w.1.2 = .ok fs := by
  have hrecorded : Recorded u [] := by
    refine ⟨?_, ?_⟩
    · rw [hlast]
      rfl
    · show (-1 : Int) ≤ u.2.code.size
      omega
  rcases hkinds with ⟨hkinds, hdims⟩ | ⟨hkinds, hmajor⟩
  · have hstart : Expanding w.1.2.types t _ u [] := ⟨hwf, .inl ⟨⟨hu, hp, hdesc, hdims, rfl⟩, rfl⟩⟩
    have hend := h.records (K := fun g => g ∈ given) Expanding.charted
      (fun h hv => h.aside hv.toAside)
      (fun h hv hg => h.accepts hv (hkinds _ hg).1 fun x hx =>
        ⟨hvalid _ hg x hx, (hkinds _ hg).2 x hx⟩)
      hstart hrecorded hmode hfail (Steps.refl _) (fun _ => id) hframes hfits
    exact hend.charted.readFrames
  · have hstart : Changing _ u [] := ⟨hu.charted hp hdesc, hmajor, .inl hu.stackMap⟩
    have hend := h.records (K := fun g => g ∈ given) Changing.toCharted Changing.passes
      (fun h hv hg hfail _ => h.accepts hv (hkinds _ hg) (hvalid _ hg) hfail)
      hstart hrecorded hmode hfail (Steps.refl _) (fun _ => id) hframes hfits
    exact hend.toCharted.readFrames

/-- A method with one integer as its parameter that has begun its code. -/
def ofInteger : State :=
  (({}, { version := 50, thisName := [84] }),
    { desc := MethodType.desc ⟨[⟨0, .int⟩], [86]⟩, hasCode := true })

set_option maxRecDepth 20000 in
theorem visits_ofInteger : ∃ w, Visits ofInteger
      [.instruction (.plain 0), .frame ⟨append, 1, [.number 2], 0, []⟩,
        .instruction (.plain 0), .frame ⟨chop, 1, [.number 2], 0, []⟩,
        .instruction (.plain 177)]
      [⟨append, 1, [.number 2], []⟩, ⟨chop, 2, [.number 2], []⟩] w ∧
    w.1.1.failure = none := by
  have hrun : (Stateful.outcome (do
        take (.instruction (.plain 0))
        let n ← codeSize
        take (.frame ⟨append, 1, [.number 2], 0, []⟩)
        take (.instruction (.plain 0))
        let k ← codeSize
        take (.frame ⟨chop, 1, [.number 2], 0, []⟩)
        take (.instruction (.plain 177))
        return (n, k)) ofInteger).map (fun r => (r.1, r.2.1.1.failure)) = .ok ((1, 2), none) := by
    cbv
  obtain ⟨r, w, hends, hw⟩ := exists_ends_of_map hrun
  obtain ⟨hsizes, hfail⟩ := Prod.mk.inj hw
  obtain ⟨_, u₁, h₁, e⟩ := hends.bind
  obtain ⟨n, _, hn, e⟩ := e.bind
  obtain ⟨hsize, rfl⟩ := ends_codeSize.1 hn
  obtain ⟨_, u₂, h₂, e⟩ := e.bind
  obtain ⟨_, u₃, h₃, e⟩ := e.bind
  obtain ⟨k, _, hk, e⟩ := e.bind
  obtain ⟨hsize', rfl⟩ := ends_codeSize.1 hk
  obtain ⟨_, u₄, h₄, e⟩ := e.bind
  obtain ⟨_, u₅, h₅, e⟩ := e.bind
  obtain ⟨hr, rfl⟩ := e.pure
  obtain ⟨rfl, rfl⟩ := Prod.mk.inj (hr.trans hsizes)
  have hvisits := Visits.step h₁ (.step h₂ (.step h₃ (.step h₄ (.step h₅ (.done u₅)))))
  refine ⟨u₅, ?_, hfail⟩
  simpa [CodeEvent.given, given, hsize, hsize', placed, mapTarget]
    using hvisits

theorem readFrames_ofInteger : ∃ es given w, Visits ofInteger es given w ∧
    w.2.readFrames w.1.1 w.1.2 =
      .ok [⟨1, [.name [84], .number 1, .number 2], []⟩, ⟨2, [.name [84], .number 1], []⟩] := by
  obtain ⟨w, hvisits, hfail⟩ := visits_ofInteger
  have hwf : ofInteger.1.2.types.Wf := by
    dsimp only [ofInteger]
    exact TypeTable.wf_empty
  have hcompressed : ∀ e ∈ [FrameEvent.append, FrameEvent.chop], e ≠ FrameEvent.expanded := by
    decide
  refine ⟨_, _, w, hvisits, ?_⟩
  refine readFrames_of_visits ⟨rfl, rfl, rfl⟩ rfl (.inl rfl) Pool.wf_empty.uncounted hwf rfl hvisits
    hfail (.inr ⟨by simpa using hcompressed, by decide⟩) ?_ rfl ?_
  · simp [GivenFrame.listed, FrameEvent.append, FrameEvent.chop, FrameEvent.expanded,
      FrameEvent.full, FrameEvent.same1, FrameItem.Valid]
  · intro g hg
    rcases List.mem_pair.1 hg with rfl | rfl <;> constructor <;> decide

end Method

end ClassAssembler
