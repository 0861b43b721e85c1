import ClassAssembler.Proofs.FrameReading
import Mathlib

/-!
# Stack maps are read as they were written

Frames are added to a stack map one after another, and between them a method may do anything that
leaves its stack map alone.  `Method.Draws` says so of a run: computing frames is such a run, and so
is inserting them when a method is written again.  Reading the stack map gives the frames back, at
the same offsets and with the same types.
-/

namespace ClassAssembler

open List SlotType

set_option synthInstance.maxSize 400

open Buffer MapItem TableFrame

/-! ## Frames -/

namespace SlotType

variable {types : TypeTable} {ts us : List SlotType} {xs ys : List (FrameItem Int)}

theorem Names.unique (h : Names types ts xs) (h' : Names types ts ys) : xs = ys := by
  induction h generalizing ys with
  | nil =>
    cases h'
    rfl
  | cons hx _ ih =>
    cases h' with
    | cons hy hys => rw [Option.some.inj (hx.symm.trans hy), ih hys]

theorem Names.of_append (h : Names types (ts ++ us) ys) (h' : Names types ts xs) :
    ∃ zs, ys = xs ++ zs ∧ Names types us zs := by
  obtain ⟨xs', zs, rfl, hxs', hzs⟩ := exists_of_forall₂_append h
  rw [Names.unique h' hxs']
  exact ⟨zs, rfl, hzs⟩

end SlotType

/-- The numbers of a frame are no more than two bytes can say. -/
structure TableFrame.Fits (g : TableFrame) : Prop where
  nonneg : 0 ≤ g.offset
  offset : g.offset ≤ 65535
  locals : g.locals.length ≤ 65535
  stack : g.stack.length ≤ 65535

namespace MapFrame

/-- A frame as it is read back. -/
structure Shows (types : TypeTable) (f : MapFrame) (g : TableFrame) : Prop where
  offset : g.offset = f.offset
  locals : SlotType.Names types f.locals g.locals
  stack : SlotType.Names types f.stack g.stack

variable {counted : Prop} {types : TypeTable} {f before : MapFrame} {g : TableFrame}
  {b b' : Buffer} {s s' : Pool × Session}

theorem stands_putFull (hp : s.1.Wf { counted }) (hfail : s'.1.failure = none)
    (htypes : s'.2.types.Grows types) (hg : f.Shows types g) (e : Ends (f.putFull b) s b' s') :
    ∃ ls ss, b'.toList = b.toList ++ (MapItem.counted ls ++ MapItem.counted ss) ∧
      Forall₂ (Stands s'.1) ls g.locals ∧ Forall₂ (Stands s'.1) ss g.stack := by
  obtain ⟨ls, s₁, hls, e⟩ := e.bind
  obtain ⟨ss, s₂, hss, e⟩ := e.bind
  obtain ⟨rfl, rfl⟩ := e.pure
  have hsame : Quiet s s₁ := hls.keeps
  have hsame' : Quiet s₁ s₂ := hss.keeps
  obtain ⟨hp₁, -⟩ := hsame.grows hp
  obtain ⟨-, hext'⟩ := hsame'.grows hp₁
  have hlocals := stands_toItems hp (hext'.no_failure hfail)
    (Steps.trans hsame'.types htypes) hg.locals hls
  refine ⟨ls, ss, ?_, hlocals.imp fun _ _ hx => hx.mono hext',
    stands_toItems hp₁ hfail htypes hg.stack hss⟩
  rw [MapItem.toList_putCounted, MapItem.toList_putCounted, append_assoc]

/-- A form says what the frame is, compared with the local variables of the frame before. -/
def Tells (f : MapFrame) (g : TableFrame) (xs : List (FrameItem Int)) (distance : Int)
    (form : FrameForm) (b : Buffer) (s : Pool × Session) (b' : Buffer) (s' : Pool × Session) :
    Prop :=
  Ends (f.putForm distance b form) s b' s' →
    ∃ row, b'.toList = b.toList ++ row ∧ Spells s'.1 xs row ⟨distance, g.locals, g.stack⟩

section

variable {distance : Int} {xs : List (FrameItem Int)}

theorem tells_full (hp : s.1.Wf { counted }) (hfail : s'.1.failure = none)
    (htypes : s'.2.types.Grows types) (hg : f.Shows types g) (hlow : 0 ≤ distance)
    (hhigh : distance ≤ 65535) (hlocals : g.locals.length ≤ 65535)
    (hstack : g.stack.length ≤ 65535) : f.Tells g xs distance .full b s b' s' := by
  intro e
  obtain ⟨ls, ss, hbytes, hls, hss⟩ := stands_putFull hp hfail htypes hg e
  refine ⟨_, ?_, .full hlow hhigh hls hss hlocals hstack⟩
  rw [hbytes, toList_putTagged, append_assoc]
  rfl

theorem tells_same (hlow : 0 ≤ distance) (hhigh : distance ≤ 65535) (hlocals : g.locals = xs)
    (hstack : g.stack = []) :
    f.Tells g xs distance (if distance < 64 then .same else .sameFar) b s b' s' := by
  intro e
  rw [hlocals, hstack]
  split at e
  next hnear =>
    obtain ⟨rfl, -⟩ := e.pure
    exact ⟨_, toList_putByte b distance, .same hlow hnear⟩
  next =>
    obtain ⟨rfl, -⟩ := e.pure
    exact ⟨_, toList_putTagged b 251 distance, .sameFar hlow hhigh⟩

theorem tells_sameWith {t : SlotType} {x : FrameItem Int} (hp : s.1.Wf { counted })
    (hfail : s'.1.failure = none) (htypes : s'.2.types.Grows types) (hlow : 0 ≤ distance)
    (hhigh : distance ≤ 65535) (hlocals : g.locals = xs) (hstack : g.stack = [x])
    (hx : t.item? types = some x) :
    f.Tells g xs distance (if distance < 64 then .sameWith t else .sameFarWith t) b s b' s' := by
  intro e
  rw [hlocals, hstack]
  have hitem {i : MapItem} (hi : Ends t.toItem s i s') : Stands s'.1 i x := by
    have hsame : Quiet s s' := hi.keeps
    exact stands_toItem hp hfail (Steps.trans hsame.types htypes) hx hi
  split at e
  next hnear =>
    obtain ⟨i, s₁, hi, e⟩ := e.bind
    obtain ⟨rfl, rfl⟩ := e.pure
    refine ⟨_, ?_, .sameWith hlow hnear (hitem hi)⟩
    rw [MapItem.toList_put, toList_putByte, append_assoc]
    rfl
  next =>
    obtain ⟨i, s₁, hi, e⟩ := e.bind
    obtain ⟨rfl, rfl⟩ := e.pure
    refine ⟨_, ?_, .sameFarWith hlow hhigh (hitem hi)⟩
    rw [MapItem.toList_put, toList_putTagged, append_assoc]
    rfl

theorem tells_appended {ts more : List SlotType} (hp : s.1.Wf { counted })
    (hfail : s'.1.failure = none) (htypes : s'.2.types.Grows types)
    (hbefore : SlotType.Names types ts xs) (hg : SlotType.Names types (ts ++ more) g.locals)
    (hlow : 0 ≤ distance) (hhigh : distance ≤ 65535) (hstack : g.stack = [])
    (hfew : more.length ≤ 3) : f.Tells g xs distance (.appended more) b s b' s' := by
  intro e
  obtain ⟨zs, hzs, hnames⟩ := hg.of_append hbefore
  obtain ⟨is, s₁, his, e⟩ := e.bind
  obtain ⟨rfl, rfl⟩ := e.pure
  have hlength := length_toItems his
  rw [hstack, hzs]
  refine ⟨_, ?_, .appended hlow hhigh (hlength ▸ hfew)
    (stands_toItems hp hfail htypes hnames his)⟩
  rw [MapItem.toList_putAll, toList_putTagged, append_assoc, hlength]
  rfl

theorem tells_chopped {ts gone : List SlotType} (hbefore : SlotType.Names types (ts ++ gone) xs)
    (hg : SlotType.Names types ts g.locals) (hlow : 0 ≤ distance) (hhigh : distance ≤ 65535)
    (hstack : g.stack = []) (hsome : gone ≠ []) (hfew : gone.length ≤ 3) :
    f.Tells g xs distance (.chopped gone.length) b s b' s' := by
  intro e
  obtain ⟨zs, hzs, hnames⟩ := hbefore.of_append hg
  obtain ⟨rfl, -⟩ := e.pure
  have hlength : gone.length = zs.length := Forall₂.length_eq hnames
  have hspells : Spells s'.1 xs (low8 (251 - gone.length) :: bytes16 distance)
      ⟨distance, xs.take (xs.length - gone.length), []⟩ :=
    .chopped hlow hhigh (length_pos_iff.2 hsome) hfew
      (by rw [hzs, length_append]; omega)
  have htake : xs.take (xs.length - gone.length) = g.locals := by
    rw [hzs, length_append, hlength, Nat.add_sub_cancel, take_left]
  rw [htake] at hspells
  rw [hstack]
  exact ⟨_, toList_putTagged b _ distance, hspells⟩

theorem tells_form (hp : s.1.Wf { counted }) (hfail : s'.1.failure = none)
    (htypes : s'.2.types.Grows types) (hbefore : SlotType.Names types before.locals xs)
    (hg : f.Shows types g) (hlow : 0 ≤ distance) (hhigh : distance ≤ 65535)
    (hlocals : g.locals.length ≤ 65535) (hstack : g.stack.length ≤ 65535) :
    f.Tells g xs distance (f.form before distance) b s b' s' := by
  have hfull : f.Tells g xs distance .full b s b' s' :=
    tells_full hp hfail htypes hg hlow hhigh hlocals hstack
  have hshown := hg.stack
  unfold form
  split
  next hnil =>
    rw [hnil] at hshown
    have hempty := forall₂_nil_left_iff.1 hshown
    split
    next heq => exact tells_same hlow hhigh (SlotType.Names.unique hg.locals (heq ▸ hbefore)) hempty
    next hne =>
      split
      · dsimp only
        split
        next hmore =>
          obtain ⟨more, hlist⟩ := isPrefixOf_iff_prefix.1 hmore.1
          have hdrop : f.locals.drop before.locals.length = more := by
            rw [← hlist, drop_left]
          rw [hdrop] at hmore ⊢
          exact tells_appended hp hfail htypes hbefore (hlist ▸ hg.locals) hlow hhigh hempty hmore.2
        next => exact hfull
      · dsimp only
        split
        next hfewer =>
          obtain ⟨gone, hlist⟩ := isPrefixOf_iff_prefix.1 hfewer.1
          have hgone : before.locals.length - f.locals.length = gone.length := by
            rw [← hlist, length_append, Nat.add_sub_cancel_left]
          have hsome : gone ≠ [] := by
            rintro rfl
            rw [append_nil] at hlist
            exact hne hlist
          rw [hgone] at hfewer ⊢
          exact tells_chopped (hlist ▸ hbefore) hg.locals hlow hhigh hempty hsome hfewer.2
        next => exact hfull
  next t hone =>
    split
    next heq =>
      rw [hone] at hshown
      obtain ⟨x, _, hx, hnil, hstack'⟩ := forall₂_cons_left_iff.1 hshown
      obtain rfl := forall₂_nil_left_iff.1 hnil
      exact tells_sameWith hp hfail htypes hlow hhigh
        (SlotType.Names.unique hg.locals (heq ▸ hbefore)) hstack' hx
    next => exact hfull
  next => exact hfull

end

theorem drawn_put {start : List (FrameItem Int)} {gs : List TableFrame} {isFirst : Bool}
    (hp : s.1.Wf { counted }) (hfail : s'.1.failure = none) (htypes : s'.2.types.Grows types)
    (hdrawn : Drawn s.1 (s.2.major < 50) start b.toList gs)
    (hbefore : 50 ≤ s.2.major → SlotType.Names types before.locals (lastLocals start gs))
    (hoffset : before.offset = lastOffset before.offset gs) (hfirst : isFirst = gs.isEmpty)
    (hlast : -1 ≤ lastOffset (-1) gs) (hg : f.Shows types g) (hfits : g.Fits)
    (hafter : lastOffset (-1) gs < g.offset) (e : Ends (f.put before isFirst b) s b' s') :
    Drawn s'.1 (s.2.major < 50) start b'.toList (gs ++ [g]) := by
  have hsame : Quiet s s' := e.keeps
  obtain ⟨-, hext⟩ := hsame.grows hp
  replace e := ends_get_bind.1 e
  split at e
  next hold =>
    obtain ⟨ls, ss, hbytes, hls, hss⟩ := stands_putFull hp hfail htypes hg e
    have hfull := Drawn.full (decide_eq_true hold) (hdrawn.mono hext) hfits.nonneg hfits.offset hls
      hss hfits.locals hfits.stack
    rw [hbytes, toList_putShort, ← hg.offset, append_assoc]
    exact hfull
  next hnew =>
    obtain ⟨distance, hdistance, hput⟩ : ∃ distance, lastOffset (-1) gs + distance + 1 = g.offset ∧
        Ends (f.putForm distance b (f.form before distance)) s b' s' := by
      refine ⟨_, ?_, e⟩
      rw [hfirst, hg.offset]
      cases gs with
      | nil =>
        have hnone : lastOffset (-1) [] = -1 := rfl
        rw [isEmpty_nil, if_pos rfl, hnone]
        omega
      | cons g' gs =>
        rw [isEmpty_cons, if_neg Bool.false_ne_true]
        rw [lastOffset_cons] at hoffset ⊢
        omega
    have hrange := hfits.offset
    obtain ⟨row, hbytes, hspells⟩ := tells_form hp hfail htypes (hbefore (Int.not_lt.1 hnew)) hg
      (by omega) (by omega) hfits.locals hfits.stack hput
    have hdiff := Drawn.difference (decide_eq_false hnew) (hdrawn.mono hext) hspells
    rw [behind, hdistance] at hdiff
    rw [hbytes]
    exact hdiff

end MapFrame

/-! ## Runs -/

namespace Method

variable {m m' : Method} {s t : Session}

def chart (m : Method) : Method :=
  { m.header with
    frameCount := m.frameCount, stackMap := m.stackMap, previousFrame := m.previousFrame }

structure Grown (u v : State) : Prop where
  pool : u.1.1.Wf { counted := False } → v.1.1.Wf { counted := False } ∧ u.1.1.Extends v.1.1
  types : u.1.2.types.Grows v.1.2.types
  setting : v.1.2.setting = u.1.2.setting

/-- Work that leaves the stack map of a method alone. -/
structure Aside (u v : State) : Prop extends Grown u v where
  chart : v.2.chart = u.2.chart

/-- Frames are added to the stack map of a method, with other work between them. -/
inductive Draws : State → List MapFrame → State → Prop
  | done (u : State) : Draws u [] u
  | frame {u v w : State} {f : MapFrame} {fs : List MapFrame} :
      Ends (MethodM.addFrame f) u () v → Draws v fs w → Draws u (f :: fs) w
  | aside {u v w : State} {fs : List MapFrame} : Aside u v → Draws v fs w → Draws u fs w

instance : Steps Grown where
  refl u := ⟨fun hp => ⟨hp, .refl _⟩, Steps.refl _, rfl⟩
  trans {u v w} h h' := by
    refine ⟨fun hp => ?_, Steps.trans h.types h'.types, h'.setting.trans h.setting⟩
    obtain ⟨hp₁, hext⟩ := h.pool hp
    obtain ⟨hp₂, hext'⟩ := h'.pool hp₁
    exact ⟨hp₂, hext.trans hext'⟩

instance : Steps Aside where
  refl u := ⟨Steps.refl u, rfl⟩
  trans h h' := ⟨Steps.trans h.toGrown h'.toGrown, h'.chart.trans h.chart⟩

theorem grown_of_sameCode {s t : Pool × Session} (m m' : Method) (h : Quiet s t) :
    Grown (s, m) (t, m') :=
  ⟨h.grows.wf, h.types, h.setting⟩

theorem grown_of_labels (s : Pool × Session) (m m' : Method) (l : LabelId) (f : Label → Label) :
    Grown (s, m) ((s.1, s.2.changeLabel l f), m') :=
  ⟨fun hp => ⟨hp, .refl _⟩, Steps.refl s.2.types, rfl⟩

instance : CodeRelation Aside where
  session m h := ⟨grown_of_sameCode m m h, rfl⟩
  label s m l f := ⟨grown_of_labels s m m l f, rfl⟩
  method s m m' h _ :=
    ⟨grown_of_sameCode _ _ (Steps.refl s), (congrArg chart h : m'.uncoded.chart = m.uncoded.chart)⟩

theorem major_of_setting (h : t.setting = s.setting) : t.major = s.major :=
  (congrArg Session.major h : t.setting.major = s.setting.major)

theorem thisName_of_setting (h : t.setting = s.setting) : t.thisName = s.thisName :=
  (congrArg Session.thisName h : t.setting.thisName = s.setting.thisName)

/-- The stack map of a method is drawn up to certain frames. -/
structure Charted (start : List (FrameItem Int)) (u : State) (gs : List TableFrame) : Prop where
  pool : u.1.1.Wf { counted := False }
  entry : u.2.entryItems u.1.2.thisName = .ok start
  drawn : Drawn u.1.1 (u.1.2.major < 50) start (u.2.stackMap.getD {}).toList gs
  count : u.2.frameCount = gs.length
  begun : u.2.stackMap = none → gs = []
  low : -1 ≤ lastOffset (-1) gs

/-- The next frame is compared with the last one. -/
structure Draft (types : TypeTable) (start : List (FrameItem Int)) (u : State)
    (gs : List TableFrame) : Prop extends Charted start u gs where
  before : ∃ b, u.2.previousFrame = some b ∧ b.offset = lastOffset b.offset gs ∧
    (50 ≤ u.1.2.major → SlotType.Names types b.locals (lastLocals start gs))

variable {types : TypeTable} {start : List (FrameItem Int)} {u v w : State} {gs : List TableFrame}
  {f : MapFrame} {g : TableFrame}

theorem entryItems_congr (hheader : m'.header = m.header) (hsetting : t.setting = s.setting) :
    m'.entryItems t.thisName = m.entryItems s.thisName := by
  have hitems (m : Method) : m.entryItems = m.header.entryItems := rfl
  rw [hitems, hitems m, hheader, thisName_of_setting hsetting]

theorem receiverItems_congr (hheader : m'.header = m.header) (hsetting : t.setting = s.setting) :
    m'.receiverItems t.thisName = m.receiverItems s.thisName := by
  have hitems (m : Method) : m.receiverItems = m.header.receiverItems := rfl
  rw [hitems, hitems m, hheader, thisName_of_setting hsetting]

theorem header_of_chart (h : m'.chart = m.chart) : m'.header = m.header :=
  (congrArg header h : m'.chart.header = m.chart.header)

theorem stackMap_of_chart (h : m'.chart = m.chart) : m'.stackMap = m.stackMap :=
  (congrArg Method.stackMap h : m'.chart.stackMap = m.chart.stackMap)

theorem Charted.aside (h : Charted start u gs) (ha : Aside u v) : Charted start v gs := by
  obtain ⟨hp, hext⟩ := ha.pool h.pool
  have hmap := stackMap_of_chart ha.chart
  have hcount : v.2.frameCount = u.2.frameCount :=
    (congrArg Method.frameCount ha.chart : v.2.chart.frameCount = u.2.chart.frameCount)
  refine ⟨hp, (entryItems_congr (header_of_chart ha.chart) ha.setting).trans h.entry, ?_,
    hcount.trans h.count, fun hnone => h.begun (hmap ▸ hnone), h.low⟩
  rw [hmap, major_of_setting ha.setting]
  exact h.drawn.mono hext

theorem Charted.adds (h : Charted start u gs) (hsame : Quiet u.1 v.1)
    (hheader : v.2.header = u.2.header)
    (hdrawn : Drawn v.1.1 (u.1.2.major < 50) start (v.2.stackMap.getD {}).toList (gs ++ [g]))
    (hcount : v.2.frameCount = u.2.frameCount + 1) (hmap : v.2.stackMap ≠ none)
    (hoffset : 0 ≤ g.offset) : Charted start v (gs ++ [g]) := by
  refine ⟨(hsame.grows h.pool).1, (entryItems_congr hheader hsame.setting).trans h.entry, ?_, ?_,
    fun hnone => absurd hnone hmap, ?_⟩
  · rw [major_of_setting hsame.setting]
    exact hdrawn
  · rw [hcount, h.count, length_append, length_singleton]
  · rw [lastOffset_append]
    exact Int.le_trans (by decide) hoffset

theorem Charted.readFrames (h : Charted start u gs) : u.2.readFrames u.1.1 u.1.2 = .ok gs := by
  unfold Method.readFrames
  cases hmap : u.2.stackMap with
  | none => rw [h.begun hmap]; rfl
  | some b =>
    have hdrawn := h.drawn
    rw [hmap] at hdrawn
    have hrun := hdrawn.run []
    rw [append_nil, ← h.count] at hrun
    by_cases hold : u.1.2.major < 50
    · simp only [hold, decide_true, if_true, Option.getD_some] at hrun
      simp [hold, hrun]
    · simp only [hold, decide_false, Bool.false_eq_true, if_false, Option.getD_some] at hrun
      simp [hold, h.entry, hrun]

theorem Draft.aside (h : Draft types start u gs) (ha : Aside u v) : Draft types start v gs := by
  have hbefore : v.2.previousFrame = u.2.previousFrame :=
    (congrArg Method.previousFrame ha.chart : v.2.chart.previousFrame = u.2.chart.previousFrame)
  refine ⟨h.toCharted.aside ha, ?_⟩
  rw [hbefore, major_of_setting ha.setting]
  exact h.before

theorem Draft.frame (h : Draft types start u gs) (htypes : v.1.2.types.Grows types)
    (hfail : v.1.1.failure = none) (hg : f.Shows types g) (hfits : g.Fits)
    (hafter : lastOffset (-1) gs < g.offset) (e : Ends (MethodM.addFrame f) u () v) :
    Draft types start v (gs ++ [g]) := by
  obtain ⟨b, hb, hoffset, hlocals⟩ := h.before
  replace e := ends_get_bind.1 e
  rw [hb] at e
  replace e := ends_get_bind.1 e
  obtain ⟨_, w, hput, e⟩ := e.bind
  obtain ⟨b', hput, hw⟩ := MethodM.ends_onStackMap hput
  replace e := ends_modify_bind.1 e
  obtain rfl := e.modify
  have hsame : Quiet u.1 w.1 := hput.keeps
  have hfirst : (u.2.frameCount == 0) = gs.isEmpty := by
    rw [h.count]
    cases gs <;> rfl
  have hdrawn := MapFrame.drawn_put h.pool hfail htypes h.drawn hlocals hoffset hfirst h.low hg
    hfits hafter hput
  refine ⟨h.toCharted.adds hsame ?_ ?_ ?_ ?_ hfits.nonneg, f, rfl, ?_, fun _ => ?_⟩
  · rw [hw]
    rfl
  · rw [hw]
    exact hdrawn
  · rw [hw]
  · rw [hw]
    exact Option.some_ne_none _
  · rw [lastOffset_append, hg.offset]
  · rw [lastLocals_append]
    exact hg.locals

theorem Draws.grown {fs : List MapFrame} (h : Draws u fs v) : Grown u v := by
  induction h with
  | done => exact Steps.refl _
  | frame e _ ih =>
    have hdrafts : Drafts _ _ := e.keeps
    exact Steps.trans (grown_of_sameCode _ _ hdrafts.same) ih
  | aside ha _ ih => exact Steps.trans ha.toGrown ih

theorem Draft.draws {fs : List MapFrame} {gs' : List TableFrame} (h : Draft types start u gs)
    (hdraws : Draws u fs v) (htypes : v.1.2.types.Grows types) (hfail : v.1.1.failure = none)
    (hshows : Forall₂ (MapFrame.Shows types) fs gs') (hfits : ∀ g ∈ gs', g.Fits)
    (hafter : ∀ g ∈ gs', lastOffset (-1) gs < g.offset)
    (hoffsets : gs'.Pairwise (·.offset < ·.offset)) : Draft types start v (gs ++ gs') := by
  induction hdraws generalizing gs gs' with
  | done =>
    obtain rfl := forall₂_nil_left_iff.1 hshows
    rw [append_nil]
    exact h
  | @frame u w v f fs e hrest ih =>
    obtain ⟨g, gs', hg, hrest_shows, rfl⟩ := forall₂_cons_left_iff.1 hshows
    obtain ⟨hg_fits, hfits⟩ := forall_mem_cons.1 hfits
    obtain ⟨hg_after, -⟩ := forall_mem_cons.1 hafter
    obtain ⟨hfirst, hoffsets⟩ := pairwise_cons.1 hoffsets
    have hdrafts : Drafts u w := e.keeps
    obtain ⟨-, hext⟩ := hrest.grown.pool (hdrafts.same.grows h.pool).1
    have hstep := h.frame (Steps.trans hrest.grown.types htypes) (hext.no_failure hfail) hg
      hg_fits hg_after e
    have hrun := ih hstep htypes hfail hrest_shows hfits
      (fun g' hg' => by rw [lastOffset_append]; exact hfirst g' hg') hoffsets
    rwa [append_assoc] at hrun
  | aside ha _ ih => exact ih (h.aside ha) htypes hfail hshows hfits hafter hoffsets

end Method

/-! ## The frame that a method begins with -/

namespace SlotType

theorem condense_tops (n : Nat) : condense (List.replicate n top) = List.replicate n top := by
  induction n with
  | zero => rfl
  | succ n ih =>
    rw [replicate_succ]
    show top :: condense (List.replicate n top) = _
    rw [ih]

theorem condense_slots (ts : List SlotType) (n : Nat) :
    condense (ts.flatMap slots ++ List.replicate n top) = ts ++ List.replicate n top := by
  induction ts with
  | nil => exact condense_tops n
  | cons t ts ih =>
    rw [flatMap_cons, append_assoc, slots]
    split
    next hwide =>
      show condense (t :: top :: (ts.flatMap slots ++ List.replicate n top)) = _
      simp [condense, hwide, ih]
    next hwide =>
      show condense (t :: (ts.flatMap slots ++ List.replicate n top)) = _
      simp [condense, hwide, ih]

theorem dropTops_append {ts : List SlotType} (h : top ∉ ts) (n : Nat) :
    dropTops (ts ++ List.replicate n top) = ts := by
  have htops (us : List SlotType) :
      (List.replicate n top ++ us).dropWhile (· = top) = us.dropWhile (· = top) := by
    induction n with
    | zero => rfl
    | succ n ih => simp [replicate_succ, ih]
  have hkeep : ts.reverse.dropWhile (· = top) = ts.reverse := by
    cases hts : ts.reverse with
    | nil => rfl
    | cons t us =>
      have hmem : t ∈ ts := mem_reverse.1 (hts ▸ mem_cons_self)
      have hne : t ≠ top := fun heq => h (heq ▸ hmem)
      simp [hne]
  rw [dropTops, reverse_append, reverse_replicate, htops, hkeep, reverse_reverse]

end SlotType

namespace MethodM

open Method

variable {u v : State}

instance aside_entryTypes : Keeps Aside entryTypes := by
  unfold entryTypes
  infer_instance

instance aside_openFrame (f : FrameId) (maxLocals : Nat) : Keeps Aside (openFrame f maxLocals) := by
  unfold openFrame
  infer_instance

instance aside_protect (h : Handler) : Keeps Aside (protect h) := by
  unfold protect
  infer_instance

end MethodM

namespace Method

open MethodM

structure Unmapped (m : Method) : Prop where
  stackMap : m.stackMap = none
  count : m.frameCount = 0
  before : m.previousFrame = none

/-- The frame that a method begins with is set up: as its descriptor says, or as the frame of its
first block. -/
inductive OpensMap (u v : State) : Prop
  | entry : Ends addEntryFrame u () v → OpensMap u v
  | computed {entry : LabelId} {n : Nat} : Ends (prepareFrames entry) u n v → OpensMap u v

variable {types : TypeTable} {start : List (FrameItem Int)} {u v : State} {f : MapFrame}

theorem Unmapped.draft (hu : u.2.Unmapped) (hp : u.1.1.Wf { counted := False })
    (hentry : u.2.entryItems u.1.2.thisName = .ok start)
    (hf : 50 ≤ u.1.2.major → SlotType.Names types f.locals start)
    (e : Ends (addFrame f) u () v) : Draft types start v [] := by
  replace e := ends_get_bind.1 e
  rw [hu.before] at e
  obtain rfl := e.modify
  refine ⟨⟨hp, hentry, ?_, hu.count, fun _ => rfl, by decide⟩, f, rfl, rfl, hf⟩
  rw [hu.stackMap]
  exact .nil

theorem Unmapped.congr {m m' : Method} (h : m.Unmapped) (hchart : m'.chart = m.chart) :
    m'.Unmapped where
  stackMap := (stackMap_of_chart hchart).trans h.stackMap
  count := (congrArg Method.frameCount hchart : m'.chart.frameCount = m.chart.frameCount).trans
    h.count
  before :=
    (congrArg Method.previousFrame hchart : m'.chart.previousFrame = m.chart.previousFrame).trans
      h.before

end Method

namespace SessionM

variable {s s' : Pool × Session} {f : FrameId}

theorem ends_onFrame_modify {g : Frame → Frame} (e : Ends (onFrame f (modify g)) s () s') :
    ∃ frame, s'.2.frames[f]? = some (g frame) := by
  obtain ⟨frame, _, hread, e⟩ := e.bind
  obtain ⟨hframe, rfl⟩ := ends_frame hread
  replace e := ends_modify_bind.1 e
  obtain ⟨r, w₂, hrun, e⟩ := e.bind
  obtain ⟨rfl, hr⟩ := Prod.mk.inj (ends_modify.1 (ends_run.1 hrun))
  replace e := ends_modify_bind.1 e
  obtain ⟨-, rfl⟩ := e.pure
  have hlt := (Array.getElem?_eq_some_iff.1 hframe).1
  refine ⟨frame, ?_⟩
  rw [hr]
  simp [hlt]

end SessionM

namespace MethodM

open Method

variable {u v : State}

theorem ends_openFrame {f : FrameId} {n : Nat} (e : Ends (openFrame f n) u () v) :
    ∃ ts w frame k, Ends entryTypes u ts w ∧ w.1.2.types.Grows v.1.2.types ∧
      v.1.2.frames[f]? = some frame ∧ frame.stack.toList = [] ∧
      frame.locals.toList = ts.flatMap slots ++ List.replicate k top := by
  obtain ⟨ts, w, hts, e⟩ := e.bind
  obtain ⟨e, -⟩ := e.lift
  have hsame : Quiet w.1 v.1 := e.keeps
  obtain ⟨frame, hframe⟩ := SessionM.ends_onFrame_modify e
  exact ⟨ts, w, _, _, hts, hsame.types, hframe, rfl, by simp [Frame.locals]; rfl⟩

end MethodM

namespace Method

open MethodM

variable {types : TypeTable} {u v : State}

theorem top_not_mem {t : MethodType} {m : Method} {thisName : Text} {ts : List SlotType}
    (h : SlotType.Names types ts (m.receiverItems thisName ++ t.parameters.map FieldType.item)) :
    top ∉ ts := by
  have hitem (p : FieldType) : p.item ≠ .number 0 := by
    obtain ⟨dims, element⟩ := p
    cases dims with
    | zero => cases element <;> simp [FieldType.item]
    | succ n => simp [FieldType.item]
  have hstart : FrameItem.number 0 ∉ m.receiverItems thisName ++
      t.parameters.map FieldType.item := by
    unfold receiverItems
    intro hmem
    rcases mem_append.1 hmem with hmem | hmem
    · split at hmem
      · cases hmem
      · split at hmem <;> simp at hmem
    · obtain ⟨p, -, hp⟩ := mem_map.1 hmem
      exact hitem p hp
  intro hmem
  obtain ⟨x, hx, htop⟩ := exists_of_forall₂_left h hmem
  cases htop
  exact hstart hx

theorem OpensMap.draft {t : MethodType} (h : OpensMap u v) (hu : u.2.Unmapped)
    (hp : u.1.1.Wf { counted := False }) (hwf : u.1.2.types.Wf) (hdesc : u.2.desc = t.desc)
    (hdims : 50 ≤ u.1.2.major → ∀ p ∈ t.parameters, p.dims ≤ 15)
    (htypes : v.1.2.types.Grows types) :
    Draft types (u.2.receiverItems u.1.2.thisName ++ t.parameters.map FieldType.item) v [] := by
  have hfirst {w x : State} {f : MapFrame} (ha : Aside u w)
      (hf : 50 ≤ u.1.2.major → SlotType.Names types f.locals
        (u.2.receiverItems u.1.2.thisName ++ t.parameters.map FieldType.item))
      (e : Ends (addFrame f) w () x) :
      Draft types (u.2.receiverItems u.1.2.thisName ++ t.parameters.map FieldType.item) x [] := by
    refine (hu.congr ha.chart).draft (ha.pool hp).1 ?_ ?_ e
    · exact (entryItems_congr (header_of_chart ha.chart) ha.setting).trans (entryItems_eq hdesc _)
    · rw [major_of_setting ha.setting]
      exact hf
  cases h with
  | entry e =>
    obtain ⟨ts, w, hts, e⟩ := e.bind
    have hdrafts : Drafts w v := e.keeps
    refine hfirst hts.keeps (fun hmajor => ?_) e
    exact (names_entryTypes (hdims hmajor) hdesc hwf hts).mono
      (Steps.trans hdrafts.same.types htypes)
  | @computed entry n e =>
    replace e := ends_get_bind.1 e
    obtain ⟨_, u₁, hprotect, e⟩ := e.bind
    obtain ⟨f, u₂, hf, e⟩ := e.bind
    replace e := ends_get_bind.1 e
    obtain ⟨_, u₃, hopen, e⟩ := e.bind
    obtain ⟨frame, u₄, hframe, e⟩ := e.bind
    obtain ⟨_, u₅, hadd, e⟩ := e.bind
    have hbefore : Aside u u₂ :=
      Steps.trans (hprotect.keeps : Aside u u₁) hf.keeps
    have hafter : Aside u₅ v := e.keeps
    have hopened : Aside u₂ u₃ := hopen.keeps
    obtain ⟨ts, w, frame', k, hts, hgrows, hframe', -, hlocals⟩ := ends_openFrame hopen
    obtain ⟨hread, hm⟩ := hframe.lift
    obtain ⟨hat, hs⟩ := SessionM.ends_frame hread
    obtain rfl : u₃ = u₄ := Prod.ext hs hm
    obtain rfl : frame' = frame := Option.some.inj (hframe'.symm.trans hat)
    obtain ⟨l, _, hl, hadd⟩ := hadd.bind
    obtain ⟨-, rfl⟩ := ends_label_lift hl
    have hdrafts : Drafts u₃ u₅ := hadd.keeps
    refine (hfirst (Steps.trans hbefore hopened) (fun hmajor => ?_) hadd).aside hafter
    have hheader := header_of_chart hbefore.chart
    have hdesc' : u₂.2.desc = t.desc :=
      (congrArg Method.desc hheader : u₂.2.header.desc = u.2.header.desc).trans hdesc
    have hnames := names_entryTypes (hdims hmajor) hdesc' (hbefore.types.wf hwf) hts
    rw [receiverItems_congr hheader hbefore.setting] at hnames
    show SlotType.Names types (dropTops (condense frame'.locals.toList)) _
    rw [hlocals, condense_slots, dropTops_append (top_not_mem hnames)]
    exact hnames.mono (Steps.trans hgrows (Steps.trans hdrafts.same.types
      (Steps.trans hafter.types htypes)))

/-! ## Computed and inserted frames -/

end Method

namespace Method

open MethodM

variable {types : TypeTable} {u v : State}

/-! ## Reading -/

/-- Reading the stack map of a method gives the frames that were written: the same offsets, and the
same types of the local variables and on the stack.  From version 50 on the first frame is written
as a difference to the parameters, so no parameter may have more dimensions than a type can hold. -/
theorem readFrames_of_draws {t : MethodType} {w : State} {fs : List MapFrame} {gs : List TableFrame}
    (hu : u.2.Unmapped) (hp : u.1.1.Wf { counted := False }) (hwf : u.1.2.types.Wf)
    (hdesc : u.2.desc = t.desc) (hdims : 50 ≤ u.1.2.major → ∀ p ∈ t.parameters, p.dims ≤ 15)
    (hopens : OpensMap u v) (hdraws : Draws v fs w) (hfail : w.1.1.failure = none)
    (hshows : Forall₂ (MapFrame.Shows w.1.2.types) fs gs) (hfits : ∀ g ∈ gs, g.Fits)
    (hoffsets : gs.Pairwise (·.offset < ·.offset)) :
    w.2.readFrames w.1.1 w.1.2 = .ok gs := by
  have hdraft := hopens.draft hu hp hwf hdesc hdims hdraws.grown.types
  refine (hdraft.draws hdraws (Steps.refl _) hfail hshows hfits ?_ hoffsets).toCharted.readFrames
  intro g hg
  exact Int.lt_of_lt_of_le (by decide) (hfits g hg).nonneg

def ofArray : State :=
  (({}, { version := 50, thisName := [84] }), { desc := MethodType.desc ⟨[⟨1, .int⟩], [86]⟩ })

set_option maxRecDepth 20000 in
theorem ends_ofArray : ∃ v w x, Ends addEntryFrame ofArray () v ∧
    Ends (addFrame ⟨3, [.object 1, .array 1 .integer], [.integer]⟩) v () w ∧
    Ends (addFrame ⟨5, [.object 1], []⟩) w () x ∧
      x.1.1.failure = none ∧ x.1.2.types.at? 1 = some (.named [84]) := by
  have hrun : (Stateful.outcome (do
        addEntryFrame
        addFrame ⟨3, [.object 1, .array 1 .integer], [.integer]⟩
        addFrame ⟨5, [.object 1], []⟩) ofArray).map
        (fun r => (r.2.1.1.failure, r.2.1.2.types.at? 1)) = .ok (none, some (.named [84])) := by
    cbv
  obtain ⟨_, x, hends, hx⟩ := exists_ends_of_map hrun
  obtain ⟨hfail, hat⟩ := Prod.mk.inj hx
  obtain ⟨_, v, hentry, e⟩ := hends.bind
  obtain ⟨_, w, hfirst, hsecond⟩ := e.bind
  exact ⟨v, w, x, hentry, hfirst, hsecond, hfail, hat⟩

theorem readFrames_ofArray : ∃ v fs w, OpensMap ofArray v ∧ Draws v fs w ∧
    w.2.readFrames w.1.1 w.1.2 =
      .ok [⟨3, [.name [84], .name [91, 73]], [.number 1]⟩, ⟨5, [.name [84]], []⟩] := by
  obtain ⟨v, w, x, hentry, hfirst, hsecond, hfail, hat⟩ := ends_ofArray
  have hdraws : Draws v [_, _] x := .frame hfirst (.frame hsecond (.done x))
  have hobject : item? x.1.2.types (.object 1) = some (.name [84]) := by
    show (x.1.2.types.at? 1).map _ = _
    rw [hat]
    rfl
  have harray : item? x.1.2.types (.array 1 .integer) = some (.name [91, 73]) := rfl
  have hint : item? x.1.2.types .integer = some (.number 1) := rfl
  have hwf : ofArray.1.2.types.Wf := by
    dsimp only [ofArray]
    exact TypeTable.wf_empty
  refine ⟨v, _, x, .entry hentry, hdraws, ?_⟩
  refine readFrames_of_draws ⟨rfl, rfl, rfl⟩ Pool.wf_empty.uncounted hwf rfl
    (fun _ => by simp) (.entry hentry) hdraws hfail ?_ ?_ (by simp)
  · refine .cons ⟨rfl, ?_, ?_⟩ (.cons ⟨rfl, ?_, .nil⟩ .nil)
    · exact .cons hobject (.cons harray .nil)
    · exact .cons hint .nil
    · exact .cons hobject .nil
  · intro g hg
    rcases mem_pair.1 hg with rfl | rfl <;> constructor <;> decide

end Method

end ClassAssembler
