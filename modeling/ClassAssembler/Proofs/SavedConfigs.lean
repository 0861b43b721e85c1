import ClassAssembler.Config.Written
import ClassAssembler.Proofs.QuotedTexts

/-!
# Saved configurations

A configuration is saved as TOML with a comment on every setting.  Reading goes over the text line
by line: each line adds the entry of its key, and a text that cannot be read ends it.  What comes
out at the end is the configuration itself, or nothing if one of its texts needs an escape that
TOML does not have.
-/

namespace ClassAssembler

open List

namespace Toml

open Text

/-! ## Keys and values -/

/-- A byte that neither is blank nor begins a comment or a line break. -/
def isSign (b : UInt8) : Bool := b != 32 && b != 9 && b != 35 && b != 10 && b != 13

def hasSign (t : Text) : Bool := t.head?.any isSign

theorem hasSign_cons {b : UInt8} {r : Text} : hasSign (b :: r) ↔ b ≠ 32 ∧ b ≠ 9 ∧ b ≠ 35 ∧ b ≠ 10 ∧
    b ≠ 13 := by
  simp [hasSign, isSign, and_assoc]

theorem hasSign_append {s : Text} (h : hasSign s) (r : Text) : hasSign (s ++ r) := by
  cases s with
  | nil => cases h
  | cons => exact h

theorem skipBlanks_of_hasSign {t : Text} (h : hasSign t) : skipBlanks t = t := by
  cases t with
  | nil => rfl
  | cons b r => simp [skipBlanks, hasSign_cons.1 h]

theorem skipLines?_of_hasSign {t : Text} (h : hasSign t) (n : Nat) :
    skipLines? (n + 1) t = some t := by
  rw [skipLines?, skipBlanks_of_hasSign h]
  cases t with
  | nil => cases h
  | cons b r => exact if_neg (by simp [afterBreak?, hasSign_cons.1 h])

theorem quoted_append (t r : Text) :
    t.quoted ++ r = 34 :: (t.pieces.flatMap (escapePiece 34) ++ 34 :: r) := by
  simp [quoted]

/-- Quoted texts do not begin with three quotes. -/
theorem quotes_quoted (t : Text) {r : Text} (h : r.head? ≠ some 34) :
    quotes 34 (t.quoted ++ r) < 3 := by
  rw [quoted_append, quotes]
  fun_cases pieces t with
  | case1 =>
    cases r with
    | nil => decide
    | cons b r =>
      have hb : b ≠ 34 := fun hb => h (congrArg some hb)
      simp [hb]
  | case2 a t c n hlead =>
    obtain ⟨hs, x, r', rfl, rfl, henc, -⟩ := lead?_eq_some hlead
    obtain ⟨b, y, hcode, hb⟩ := exists_escapeCode hs henc
    simp [escapePiece, hcode, hb]
  | case3 a t hlead =>
    have hstray : escapePiece 34 (.stray a) = 92 :: 120 :: hex 2 a.toNat := rfl
    simp [hstray]

theorem value?_quoted (t : Text) {r : Text} (h : r.head? ≠ some 34) (n : Nat) :
    value? (n + 1) (t.quoted ++ r) = if t.isSaveable then some (.ofText t, r) else none := by
  have hfew := quotes_quoted t h
  rw [quoted_append] at hfew ⊢
  rw [value?, if_pos (.inl rfl), quoted?, if_pos (.inl rfl), if_neg (by omega), if_pos rfl,
    basic?_quoted]
  split <;> rfl

theorem keyPart?_quoted (t r : Text) :
    keyPart? (t.quoted ++ r) = if t.isSaveable then some (t, r) else none := by
  rw [quoted_append, keyPart?, if_pos rfl, basic?_quoted]
  rfl

/-- Whether a text is a key that need not be quoted. -/
def isBareKey (k : Text) : Bool := !k.isEmpty && k.all isBare

theorem hasSign_of_isBareKey {k : Text} (h : isBareKey k) :
    hasSign k ∧ k.head? ≠ some 91 ∧ k.head? ≠ some 34 ∧ k.head? ≠ some 39 := by
  cases k with
  | nil => cases h
  | cons b k =>
    simp only [isBareKey, isEmpty_cons, Bool.not_false, Bool.true_and, all_cons,
      Bool.and_eq_true] at h
    have hb (x : UInt8) (hx : isBare x = false) : b ≠ x := by
      rintro rfl
      exact absurd h.1 (by simp [hx])
    simp [hasSign_cons, hb 32 rfl, hb 9 rfl, hb 35 rfl, hb 10 rfl, hb 13 rfl, hb 91 rfl, hb 34 rfl,
      hb 39 rfl]

theorem keyPart?_bare {k : Text} (hk : isBareKey k) {b : UInt8} (hb : isBare b = false) (r : Text) :
    keyPart? (k ++ b :: r) = some (k, b :: r) := by
  obtain ⟨-, -, hquote, hquote'⟩ := hasSign_of_isBareKey hk
  simp only [isBareKey, Bool.and_eq_true, Bool.not_eq_true', all_eq_true] at hk
  have htake : (k ++ b :: r).takeWhile isBare = k := by
    rw [takeWhile_append_of_pos hk.2, takeWhile_cons, if_neg (by simp [hb]), append_nil]
  cases k with
  | nil => exact absurd hk.1 (by decide)
  | cons a k =>
    rw [cons_append] at htake ⊢
    rw [keyPart?, if_neg fun h => hquote (congrArg some h),
      if_neg fun h => hquote' (congrArg some h)]
    simp only [htake]
    simp

theorem key?_of_part {t part r s : Text} {b : UInt8} {n : Nat} (ht : hasSign t)
    (h : keyPart? t = some (part, r)) (hr : skipBlanks r = b :: s) (hb : b ≠ 46) :
    key? (n + 1) t = some ([part], b :: s) := by
  rw [key?, skipBlanks_of_hasSign ht, h]
  simp only [Option.bind_eq_bind, Option.bind_some, hr]
  split
  next heq => exact absurd (cons.inj heq).1 hb
  next => rfl

/-! ## Lists -/

theorem items?_blank (n : Nat) (t : Text) (ds : List Document) :
    items? (n + 1) (32 :: t) ds = items? (n + 1) t ds := rfl

theorem items?_quoted (t : Text) {b : UInt8} (hb : isSign b) (hquote : b ≠ 34) (n : Nat) (r : Text)
    (ds : List Document) :
    items? (n + 2) (t.quoted ++ b :: r) ds =
      if t.isSaveable then
        if b = 44 then items? (n + 1) r (.ofText t :: ds)
        else if b = 93 then some (.list (.ofText t :: ds).reverse, r) else none
      else none := by
  have hvalue := value?_quoted t (r := b :: r) (by simpa using hquote) n
  have hfirst := skipLines?_of_hasSign (hasSign_append (s := t.quoted) rfl (b :: r)) (n + 1)
  have hnext := skipLines?_of_hasSign (t := b :: r) hb (n + 1)
  rw [quoted_append] at hvalue hfirst ⊢
  rw [items?, hfirst]
  simp only [Option.bind_eq_bind, Option.bind_some]
  split
  next h => exact absurd (cons.inj h).1 (by decide)
  next =>
    rw [hvalue]
    split
    next =>
      rw [Option.bind_some]
      dsimp only
      rw [hnext, Option.bind_some]
      split <;> simp_all
    next => rfl

theorem items?_join {ts : List Text} {n : Nat} (hn : ts.length + 2 ≤ n) (r : Text)
    (ds : List Document) : items? n (Text.join (ofString ", ") (ts.map quoted) ++ 93 :: r) ds =
      if ts.all isSaveable then some (.list (ds.reverse ++ ts.map .ofText), r) else none := by
  induction ts generalizing n ds with
  | nil =>
    obtain ⟨n, rfl⟩ : ∃ m, n = m + 1 := ⟨n - 1, by simp at hn; omega⟩
    rw [items?]
    simp [Text.join, skipLines?, skipBlanks, afterBreak?]
  | cons t ts ih =>
    rw [length_cons] at hn
    obtain ⟨n, rfl⟩ : ∃ m, n = m + 2 := ⟨n - 2, by omega⟩
    cases ts with
    | nil =>
      rw [map_singleton, Text.join, items?_quoted t (by decide) (by decide)]
      simp
    | cons t' ts =>
      have hnext := ih (n := n + 1) (by simp at hn ⊢; omega) (.ofText t :: ds)
      have hjoin : Text.join (ofString ", ") ((t :: t' :: ts).map quoted) ++ 93 :: r =
          t.quoted ++ 44 :: 32 ::
            (Text.join (ofString ", ") ((t' :: ts).map quoted) ++ 93 :: r) := by
        rw [show ofString ", " = [44, 32] by decide +kernel]
        simp [Text.join]
      rw [hjoin, items?_quoted t (by decide) (by decide), if_pos rfl, items?_blank, hnext]
      by_cases ht : t.isSaveable
      · simp [ht]
      · simp [ht]

/-- The texts of a list between brackets. -/
def listed (ts : List Text) : Text := 91 :: (Text.join (ofString ", ") (ts.map quoted) ++ [93])

theorem value?_listed (ts : List Text) {n : Nat} (hn : ts.length + 2 ≤ n) (r : Text) :
    value? (n + 1) (listed ts ++ r) = if ts.all isSaveable then some (.list (ts.map .ofText), r)
    else none := by
  have hitems := items?_join hn r []
  rw [listed, cons_append, append_assoc, value?, if_neg (by decide), if_pos rfl]
  exact hitems

/-! ## Tables -/

namespace Entries

variable {es : Entries} {key : Text} {x y : Node}

theorem lookup_eq_none (h : key ∉ es.map Prod.fst) : es.lookup key = none := by
  induction es with
  | nil => rfl
  | cons e es ih =>
    rw [map_cons, mem_cons, not_or] at h
    rw [lookup_cons, beq_eq_false_iff_ne.2 h.1]
    exact ih h.2

theorem put_eq_append (h : key ∉ es.map Prod.fst) : es.put key x = es ++ [(key, x)] := by
  induction es with
  | nil => rfl
  | cons e es ih =>
    rw [map_cons, mem_cons, not_or] at h
    rw [put, if_neg (Ne.symm h.1), ih h.2, cons_append]

theorem put_append_self (h : key ∉ es.map Prod.fst) :
    put key y (es ++ [(key, x)]) = es ++ [(key, y)] := by
  induction es with
  | nil => simp [put]
  | cons e es ih =>
    rw [map_cons, mem_cons, not_or] at h
    rw [cons_append, put, if_neg (Ne.symm h.1), ih h.2, cons_append]

theorem insertAt?_new (h : key ∉ es.map Prod.fst) (d : Document) :
    es.insertAt? [] [key] d = some (es ++ [(key, .leaf d)]) := by
  rw [insertAt?, insert?, lookup_eq_none h, put_eq_append h]

theorem insertAt?_table {inner : Entries} {part : Text} (hpart : part ∉ es.map Prod.fst)
    (h : key ∉ inner.map Prod.fst) (d : Document) :
    Entries.insertAt? [part] [key] d (es ++ [(part, .table .header inner)]) =
      some (es ++ [(part, .table .header (inner ++ [(key, .leaf d)]))]) := by
  rw [insertAt?, lookup_append, lookup_eq_none hpart]
  simp [insertAt?_new h, put_append_self hpart]

end Entries

/-! ## Lines -/

/-- A comment line before a text. -/
def noted (note : String) (r : Text) : Text := 35 :: (ofString note ++ 10 :: r)

/-- A line with a key and a value before a text. -/
def line (k v r : Text) : Text := k ++ 32 :: 61 :: 32 :: (v ++ 10 :: r)

theorem skipLines?_noted {note : String} (h : ∀ b ∈ ofString note, isPlain b) (n : Nat) (r : Text) :
    skipLines? (n + 1) (noted note r) = skipLines? n r := by
  have hline (b : UInt8) (hb : b ∈ 35 :: ofString note) : (b != 10 && b != 13) = true := by
    have hplain : isPlain b := by
      rcases mem_cons.1 hb with rfl | hb
      · decide
      · exact h b hb
    have hne : b ≠ 10 ∧ b ≠ 13 := by
      constructor <;>
      · rintro rfl
        revert hplain
        decide
    simpa using hne
  have htake : (noted note r).takeWhile (fun b => b != 10 && b != 13) = 35 :: ofString note := by
    rw [noted, ← cons_append, takeWhile_append_of_pos hline]
    simp
  have hcomment : afterComment? (noted note r) = some (10 :: r) := by
    rw [noted] at htake ⊢
    rw [afterComment?, htake, if_pos (by simpa using ⟨by decide, h⟩)]
    simp
  have hblank : skipBlanks (noted note r) = noted note r := rfl
  rw [skipLines?, hblank, if_pos (.inl rfl), endOfLine?, hblank, hcomment]
  rfl

theorem skipLines?_gap {note : String} (h : ∀ b ∈ ofString note, isPlain b) (n : Nat) (r : Text) :
    skipLines? (n + 2) (10 :: noted note r) = skipLines? n r := skipLines?_noted h n r

section

variable {n m : Nat} {es root : Entries} {t r : Text} {z : Bool}

/-- A line is read as the entry of its key if both its key and its value can be read. -/
theorem lines?_line {path : List Text} {es' : Entries} {k v part : Text} {d : Document} {p q : Bool}
    (hskip : skipLines? (n + 1) t = skipLines? (m + 1) (line k v r)) (hk : hasSign k)
    (hhead : k.head? ≠ some 91)
    (hkey : keyPart? (line k v r) = if p then some (part, 32 :: 61 :: 32 :: (v ++ 10 :: r))
      else none) (hv : hasSign v) (hvalue :
      value? (2 * n + 1) (v ++ 10 :: r) = if q then some (d, 10 :: r) else none)
    (hinsert : es.insertAt? path [part] d = some es')
    (hrest : lines? n path es' r = if z then some root else none) :
    lines? (n + 1) path es t = if p && (q && z) then some root else none := by
  have hsign : hasSign (line k v r) := hasSign_append hk _
  have hpair : pair? (2 * n + 2) (line k v r) = if p && q then some ([part], d, 10 :: r)
      else none := by
    cases p with
    | false =>
      rw [pair?, key?, skipBlanks_of_hasSign hsign, hkey]
      rfl
    | true =>
      rw [pair?, key?_of_part hsign hkey rfl (by decide)]
      have hblank : skipBlanks (32 :: (v ++ 10 :: r)) = v ++ 10 :: r :=
        skipBlanks_of_hasSign (hasSign_append hv _)
      simp only [Option.bind_eq_bind, Option.bind_some, hblank, hvalue]
      cases q <;> rfl
  obtain ⟨b, s, hs, hb⟩ : ∃ b s, line k v r = b :: s ∧ b ≠ 91 := by
    cases k with
    | nil => cases hk
    | cons b k => exact ⟨b, _, rfl, fun hb => hhead (congrArg some hb)⟩
  rw [skipLines?_of_hasSign hsign, hs] at hskip
  rw [hs] at hpair
  rw [lines?, hskip]
  dsimp only
  rw [if_neg hb, hpair]
  cases p with
  | false => rfl
  | true =>
    cases q with
    | false => rfl
    | true =>
      simp only [Bool.and_self, if_true, hinsert]
      exact hrest

theorem lines?_header {key : String} (hkey : isBareKey (ofString key))
    (hnew : ofString key ∉ es.map Prod.fst)
    (hskip : skipLines? (n + 1) t = skipLines? (m + 1) (91 :: (ofString key ++ 93 :: 10 :: r)))
    (hrest : lines? n [ofString key] (es ++ [(ofString key, .table .header [])]) r =
      if z then some root else none) :
    lines? (n + 1) [] es t = if z then some root else none := by
  obtain ⟨hsign, hhead, -⟩ := hasSign_of_isBareKey hkey
  have hpart := keyPart?_bare hkey (b := 93) (by decide) (10 :: r)
  have hheader : header? (91 :: (ofString key ++ 93 :: 10 :: r)) =
      some ([ofString key], false, 10 :: r) := by
    rw [header?.eq_def]
    split
    next heq =>
      cases hk : ofString key with
      | nil => rw [hk] at hsign; cases hsign
      | cons b k =>
        rw [hk] at heq hhead
        exact absurd (congrArg some (cons.inj (cons.inj heq).2).1) hhead
    next heq =>
      rw [← (cons.inj heq).2, key?_of_part (hasSign_append hsign _) hpart rfl (by decide)]
      rfl
    next h => exact absurd rfl (h _)
  have hopen : es.openTable? [ofString key] = some (es ++ [(ofString key, .table .header [])]) := by
    rw [Entries.openTable?, Entries.lookup_eq_none hnew, Entries.put_eq_append hnew]
  rw [skipLines?_of_hasSign (t := 91 :: _) rfl] at hskip
  rw [lines?, hskip]
  simp only [if_pos, hheader]
  rw [if_neg (by decide), hopen, show endOfLine? (10 :: r) = some r from rfl]
  exact hrest

end

/-- Lines with quoted keys and quoted values. -/
def rows (entries : List (Text × Text)) :
    Text := entries.foldr (fun e => line e.1.quoted e.2.quoted) []

theorem lines?_rows (es inner : Entries) {part : Text} (hpart : part ∉ es.map Prod.fst)
    {entries : List (Text × Text)} (hnew : ∀ e ∈ entries, e.1 ∉ inner.map Prod.fst)
    (hdistinct : (entries.map Prod.fst).Nodup) {n : Nat} (hn : entries.length < n) :
    lines? n [part] (es ++ [(part, .table .header inner)]) (rows entries) =
      if entries.all fun e => e.1.isSaveable && e.2.isSaveable then
        some (es ++ [(part, .table .header (inner ++ entries.map
          fun e => (e.1, .leaf (.ofText e.2))))])
      else none := by
  induction entries generalizing inner n with
  | nil =>
    obtain ⟨n, rfl⟩ : ∃ m, n = m + 1 := ⟨n - 1, by simp at hn; omega⟩
    rw [lines?]
    simp [rows, skipLines?, skipBlanks, afterBreak?]
  | cons e entries ih =>
    rw [length_cons] at hn
    obtain ⟨n, rfl⟩ : ∃ m, n = m + 1 := ⟨n - 1, by omega⟩
    obtain ⟨hname, hrest⟩ := forall_mem_cons.1 hnew
    rw [map_cons, nodup_cons] at hdistinct
    have hnew' (e' : Text × Text) (he : e' ∈ entries) :
        e'.1 ∉ (inner ++ [(e.1, Node.leaf (.ofText e.2))]).map Prod.fst := by
      rw [map_append, mem_append, not_or]
      refine ⟨hrest e' he, fun hmem => hdistinct.1 ?_⟩
      rw [← mem_singleton.1 hmem]
      exact mem_map_of_mem he
    have hnext := ih _ hnew' hdistinct.2 (n := n) (by omega)
    rw [append_assoc] at hnext
    rw [all_cons, Bool.and_assoc]
    exact lines?_line rfl rfl (by simp [quoted]) (keyPart?_quoted _ _) rfl
      (value?_quoted e.2 (by simp) _) (Entries.insertAt?_table hpart hname _) hnext

theorem documentEntries_leaves (entries : List (Text × Text)) :
    documentEntries (entries.map fun e => (e.1, .leaf (.ofText e.2))) = entries.map
    fun e => (e.1, .ofText e.2) := by
  induction entries with
  | nil => rfl
  | cons e entries ih =>
    rw [map_cons, documentEntries, ih]
    rfl

theorem value?_truthWord (b : Bool) (n : Nat) (r : Text) :
    value? (n + 1) (Config.truthWord b ++ 10 :: r) =
      some (.scalar (Config.truthWord b) (.bool b), 10 :: r) := by
  cases b with
  | false =>
    rw [Config.truthWord, if_neg (by decide), show ofString "false" =
      [102, 97, 108, 115, 101] by decide +kernel]
    cbv
  | true =>
    rw [Config.truthWord, if_pos rfl, show ofString "true" = [116, 114, 117, 101] by decide +kernel]
    cbv

end Toml

namespace Config

open Toml Text Document DocumentFormat

/-! ## The lines of a saved text -/

/-- Whether TOML knows all escapes in the texts of a configuration. -/
def isSaveable (c : Config) : Bool :=
  c.outputDir.isSaveable &&
    (c.compute.isSaveable && (c.logLevel.isSaveable &&
      (c.interfaces.all Text.isSaveable && c.hierarchy.all
        fun e => e.1.isSaveable && e.2.isSaveable)))

/-- The names of the settings in the order of a saved text. -/
def names : List String := ["output_dir", "compute", "log_level", "development", "interfaces",
    "hierarchy"]

def notes : List String :=
  [" .class 文件输出目录", " 计算模式：nothing, maxs, frames", " 日志级别：debug, info, warn, error",
    " 帧计算时当作接口的类型", " 类内部名 = 父类内部名"]

def settings (c : Config) : Entries :=
  [("output_dir", .leaf (.ofText c.outputDir)), ("compute", .leaf (.ofText c.compute)),
    ("log_level", .leaf (.ofText c.logLevel)),
    ("development", .leaf (.scalar (truthWord c.development) (.bool c.development))),
    ("interfaces", .leaf (.list (c.interfaces.map .ofText)))]

def nodes (c : Config) : Entries :=
  c.settings ++ [(ofString "hierarchy",
    .table .header (c.hierarchy.map fun e => (e.1, .leaf (.ofText e.2))))]

theorem toToml_eq (c : Config) : c.toToml =
    noted notes[0] (line (ofString "output_dir") c.outputDir.quoted
    (10 :: noted notes[1] (line (ofString "compute") c.compute.quoted
    (10 :: noted notes[2] (line (ofString "log_level") c.logLevel.quoted
    (line (ofString "development") (truthWord c.development)
    (10 :: noted notes[3] (line (ofString "interfaces") (listed c.interfaces)
    (10 :: noted notes[4]
      (91 :: (ofString "hierarchy" ++ 93 :: 10 :: rows c.hierarchy))))))))))) := by
  have hequals : ofString " = " = [32, 61, 32] := by decide +kernel
  have hdir : ofString "# .class 文件输出目录\n" = noted notes[0] [] := by decide +kernel
  have hcompute : ofString "\n# 计算模式：nothing, maxs, frames\n" = 10 ::
    noted notes[1] [] := by decide +kernel
  have hlevel : ofString "\n# 日志级别：debug, info, warn, error\n" = 10 ::
    noted notes[2] [] := by decide +kernel
  have hdevelopment : ofString "development = " = ofString "development" ++
    [32, 61, 32] := by decide +kernel
  have hinterfaces : ofString "\n\n# 帧计算时当作接口的类型\ninterfaces = [" =
      10 :: 10 :: noted notes[3] (ofString "interfaces" ++ [32, 61, 32, 91]) := by decide +kernel
  have hhierarchy : ofString "]\n\n# 类内部名 = 父类内部名\n[hierarchy]\n" =
      93 :: 10 :: 10 :: noted notes[4]
      (91 :: (ofString "hierarchy" ++ [93, 10])) := by decide +kernel
  have hrows : (c.hierarchy.flatMap fun e => e.1.quoted ++ 32 :: 61 :: 32 :: (e.2.quoted ++ [10])) =
      rows c.hierarchy := by
    induction c.hierarchy with
    | nil => rfl
    | cons e entries ih => simp [flatMap_cons, ih, rows, line]
  simp [toToml, tomlText, hequals, hdir, hcompute, hlevel, hdevelopment, hinterfaces, hhierarchy,
    hrows, noted, line, listed]

theorem lines?_setting (c : Config) (i : Fin 5) {n m : Nat} {root : Entries} {t v r : Text}
    {d : Document} {q z : Bool}
    (hd : c.settings.take (i + 1) = c.settings.take i ++ [(ofString names[i], .leaf d)])
    (hskip : skipLines? (n + 1) t = skipLines? (m + 1) (line (ofString names[i]) v r))
    (hv : hasSign v) (hvalue : value? (2 * n + 1) (v ++ 10 :: r) = if q then some (d, 10 :: r)
      else none) (hrest : lines? n [] (c.settings.take (i + 1)) r = if z then some root else none) :
    lines? (n + 1) [] (c.settings.take i) t = if q && z then some root else none := by
  have hbare : ∀ i : Fin 5, isBareKey (ofString names[i]) := by decide +kernel
  have hnew : ∀ i : Fin 5, ofString names[i] ∉ (names.map ofString).take i := by decide +kernel
  have hnames : (c.settings.take i).map Prod.fst = (names.map ofString).take i := by
    rw [map_take]
    match i with
    | 0 | 1 | 2 | 3 | 4 => rfl
  obtain ⟨hsign, hhead, -⟩ := hasSign_of_isBareKey (hbare i)
  rw [hd] at hrest
  exact lines?_line (p := true) hskip hsign hhead (keyPart?_bare (hbare i) (by decide) _) hv hvalue
    (Entries.insertAt?_new (by rw [hnames]; exact hnew i) d) hrest

theorem lines?_toToml {c : Config} (hdistinct : (c.hierarchy.map Prod.fst).Nodup) {n : Nat}
    (hn : c.interfaces.length + c.hierarchy.length < n) :
    lines? (n + 9) [] [] c.toToml = if c.isSaveable then some c.nodes else none := by
  have hnew : ofString "hierarchy" ∉ (names.take 5).map ofString := by decide +kernel
  have hplain (i : Fin 5) : ∀ b ∈ ofString notes[i], isPlain b :=
    all_eq_true.1 (by revert i; decide +kernel)
  have hword : ∀ b, hasSign (truthWord b) := by decide +kernel
  -- each line is read whatever follows it: so the last one comes first
  have hrows := lines?_rows c.settings [] hnew (by simp) hdistinct (n := n + 3) (by omega)
  have hhierarchy := lines?_header (by decide +kernel) hnew (skipLines?_gap (hplain 4) (n + 2) _)
    hrows
  have hinterfaces := c.lines?_setting 4 (n := n + 4) rfl (skipLines?_gap (hplain 3) (n + 3) _) rfl
    (value?_listed c.interfaces (by omega) _) hhierarchy
  have hdevelopment := c.lines?_setting 3 (n := n + 5) (q := true) rfl rfl (hword _)
    (value?_truthWord _ _ _) hinterfaces
  have hlevel := c.lines?_setting 2 (n := n + 6) rfl (skipLines?_gap (hplain 2) _ _) rfl
    (value?_quoted c.logLevel (by simp) _) hdevelopment
  have hcompute := c.lines?_setting 1 (n := n + 7) rfl (skipLines?_gap (hplain 1) _ _) rfl
    (value?_quoted c.compute (by simp) _) hlevel
  have hdir := c.lines?_setting 0 (n := n + 8) rfl (skipLines?_noted (hplain 0) _ _) rfl
    (value?_quoted c.outputDir (by simp) _) hcompute
  rw [toToml_eq]
  exact hdir

/-! ## The saved text as a document -/

theorem isWellFormed_ascii_cons {b : UInt8} (hb : b < 0x80) (r : Text) :
    isWellFormed (b :: r) = r.isWellFormed :=
  isWellFormed_append (s := [b]) (isWellFormed_of_ascii (by simpa using hb)) r

theorem isWellFormed_noted {note : String} (h : (ofString note).isWellFormed) (r : Text) :
    (noted note r).isWellFormed = r.isWellFormed := by
  rw [noted, isWellFormed_ascii_cons (by decide), isWellFormed_append h,
    isWellFormed_ascii_cons (by decide)]

theorem isWellFormed_line {k v : Text} (hk : k.isWellFormed) (hv : v.isWellFormed) (r : Text) :
    (line k v r).isWellFormed = r.isWellFormed := by
  have hequals := isWellFormed_append (s := [32, 61, 32]) (by decide +kernel) (v ++ 10 :: r)
  rw [line, isWellFormed_append hk]
  exact hequals.trans ((isWellFormed_append hv _).trans (isWellFormed_ascii_cons (by decide) r))

theorem isWellFormed_rows (entries : List (Text × Text)) : (rows entries).isWellFormed := by
  induction entries with
  | nil => decide +kernel
  | cons e entries ih => exact (isWellFormed_line (isWellFormed_quoted _)
    (isWellFormed_quoted _) _).trans ih

theorem isWellFormed_listed (ts : List Text) : (listed ts).isWellFormed := by
  rw [listed, isWellFormed_ascii_cons (by decide)]
  induction ts with
  | nil => decide +kernel
  | cons t ts ih =>
    cases ts with
    | nil =>
      rw [map_singleton, Text.join, isWellFormed_append (isWellFormed_quoted t)]
      decide +kernel
    | cons t' ts =>
      rw [map_cons, map_cons, Text.join, append_assoc, append_assoc,
        isWellFormed_append (isWellFormed_quoted t), isWellFormed_append (by decide +kernel)]
      · exact ih
      · simp

theorem isWellFormed_toToml (c : Config) : c.toToml.isWellFormed := by
  have hnotes : ∀ note ∈ notes, (ofString note).isWellFormed := by decide +kernel
  have hnames : ∀ k ∈ names, (ofString k).isWellFormed := by decide +kernel
  have hword : ∀ b, (truthWord b).isWellFormed := by decide +kernel
  have hsign (b : UInt8) (hb : b = 10 ∨ b = 91 ∨ b = 93) (r : Text) : isWellFormed (b :: r) =
      r.isWellFormed :=
    isWellFormed_ascii_cons (by rcases hb with rfl | rfl | rfl <;> decide) r
  rw [names] at hnames
  simp [toToml_eq, isWellFormed_noted, isWellFormed_line, isWellFormed_append, isWellFormed_quoted,
    isWellFormed_listed, isWellFormed_rows, hnotes, hnames, hword, hsign]

/-- The text is longer than the steps that reading it takes. -/
theorem length_toToml (c : Config) :
    c.interfaces.length + c.hierarchy.length + 9 ≤ c.toToml.length := by
  have hlist (ts : List Text) : ts.length ≤ (listed ts).length := by
    induction ts with
    | nil => simp
    | cons t ts ih =>
      cases ts with
      | nil => simp [listed]
      | cons t' ts =>
        simp [listed, Text.join, quoted] at ih ⊢
        omega
  have hrows (entries : List (Text × Text)) : entries.length ≤ (rows entries).length := by
    induction entries with
    | nil => simp
    | cons e entries ih =>
      simp [rows, line] at ih ⊢
      omega
  have := hlist c.interfaces
  have := hrows c.hierarchy
  rw [toToml_eq]
  simp only [noted, line, length_cons, length_append]
  omega

def entries (c : Config) : List (Text × Document) :=
  [("output_dir", .ofText c.outputDir), ("compute", .ofText c.compute),
    ("log_level", .ofText c.logLevel),
    ("development", .scalar (truthWord c.development) (.bool c.development)),
    ("interfaces", .list (c.interfaces.map .ofText)),
    ("hierarchy", .table (c.hierarchy.map fun e => (e.1, .ofText e.2)))]

theorem documentEntries_nodes (c : Config) : documentEntries c.nodes = c.entries := by
  simp [entries, nodes, settings, documentEntries, Node.toDocument, documentEntries_leaves]

theorem areDistinct_of_nodup {ks : List Text} (h : ks.Nodup) : areDistinct ks := by
  induction ks with
  | nil => rfl
  | cons k ks ih =>
    rw [nodup_cons] at h
    simp [areDistinct, h.1, ih h.2]

theorem hasDistinctKeys_entries {c : Config} (hdistinct : (c.hierarchy.map Prod.fst).Nodup) :
    (Document.table c.entries).hasDistinctKeys := by
  have hleaf (t : Text) : (Document.ofText t).hasDistinctKeys := rfl
  have hitems : itemsHaveDistinctKeys (c.interfaces.map .ofText) := by
    induction c.interfaces with
    | nil => rfl
    | cons t ts ih => exact ih
  have hrows (entries : List (Text × Text)) :
      entriesHaveDistinctKeys (entries.map fun e => (e.1, .ofText e.2)) := by
    induction entries with
    | nil => rfl
    | cons e entries ih => exact ih
  have hnames : areDistinct (names.map ofString) := by decide +kernel
  simp only [names, map_cons, map_nil] at hnames
  simp only [entries, Document.hasDistinctKeys, entriesHaveDistinctKeys, hitems, hrows, hnames,
    hleaf, map_cons, map_nil, map_map, Function.comp_def, Bool.and_true]
  exact areDistinct_of_nodup hdistinct

theorem read?_toToml {c : Config} (hdistinct : (c.hierarchy.map Prod.fst).Nodup) :
    read? .toml c.toToml =
      if c.isSaveable then some (.document (.table c.entries)) else none := by
  have hlength := length_toToml c
  have hlines := lines?_toToml hdistinct (n := c.toToml.length - 8) (by omega)
  rw [show c.toToml.length - 8 + 9 = c.toToml.length + 1 by omega] at hlines
  simp only [read?, Document.ofToml?, isWellFormed_toToml, if_pos, hlines]
  split
  next => simp [documentEntries_nodes, hasDistinctKeys_entries hdistinct]
  next => rfl

theorem record?_entries {c : Config} (hsorted : (c.hierarchy.map Prod.fst).Pairwise (· < ·)) :
    record? .toml false (keys .toml) (.table c.entries) {} = some c := by
  have htext (t old : Text) : text? .toml (.ofText t) old = some t := rfl
  have htexts : texts? .toml (.list (c.interfaces.map .ofText)) = some c.interfaces := by
    simp only [texts?, DocumentFormat.items?, mapM_map, Function.comp_def, htext]
    exact mapM_pure.trans (by simp)
  have htable : textTable? .toml (.table (c.hierarchy.map fun e => (e.1, .ofText e.2))) =
      some c.hierarchy := by
    simp only [textTable?, mapM_map, Function.comp_def, htext, Option.map_some]
    exact mapM_pure.trans (by simp)
  have hsort : c.hierarchy.mergeSort (fun a b => a.1 ≤ b.1) = c.hierarchy :=
    mergeSort_of_pairwise ((pairwise_map.1 hsorted).imp fun h => decide_eq_true (List.le_of_lt h))
  have hnames : ∀ k ∈ names, ∀ k' ∈ names,
      DocumentFormat.names .toml (ofString k) (ofString k') = decide (k = k') := by decide +kernel
  rw [names] at hnames
  simp [entries, record?, entries?, keys, hnames, htext, htexts, htable,
    hsort, bool?]

/-- A saved configuration is read as itself if TOML knows all escapes in its texts, and not at all
if not. -/
theorem ofText?_toToml (c : Config) (hsorted : (c.hierarchy.map Prod.fst).Pairwise (· < ·)) :
    ofText? .toml c.toToml = if c.isSaveable then some c else none := by
  have hdistinct : (c.hierarchy.map Prod.fst).Nodup :=
    hsorted.imp (S := (· ≠ ·)) fun h heq => List.lt_irrefl _ (heq ▸ h)
  rw [ofText?, read?_toToml hdistinct]
  by_cases hsave : c.isSaveable
  · rw [if_pos hsave, if_pos hsave]
    exact record?_entries hsorted
  · rw [if_neg hsave, if_neg hsave]

def inDirectory (d : Text) :
    Config := { outputDir := d, hierarchy := [("p/A", "p/B"), ("p/B", "p/C")] }

theorem ofText?_toToml_escapes :
    ofText? .toml (inDirectory "ä\n").toToml = some (inDirectory "ä\n") ∧
    ofText? .toml (inDirectory [7]).toToml = none :=
  ⟨(ofText?_toToml _ (by decide +kernel)).trans (if_pos (by decide +kernel)),
    (ofText?_toToml _ (by decide +kernel)).trans (if_neg (by decide +kernel))⟩

end Config

end ClassAssembler
