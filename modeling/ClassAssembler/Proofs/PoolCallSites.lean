import Mathlib.Data.Fintype.Card
import ClassAssembler.Proofs.PoolEntries

/-!
# Call sites and their bootstrap methods

A dynamic call site refers to a bootstrap method by its number.  `Pool.Site` says what bootstrap
method has a number, as it is read back from the bytes of the pool.  Numbers and bootstrap methods
determine each other, and a number once given keeps its meaning.
-/

namespace ClassAssembler

open List

namespace Pool

variable {b : Block} {method : Constant} {bs : List Block} {args : List Constant} {n : Nat}
  {p q : Pool}

/-! ## Reading words back -/

theorem wordsOf_wordBytes_append (ws : List UInt16) (rest : List UInt8) :
    wordsOf (wordBytes ws ++ rest) = ws.map UInt16.toNat ++ wordsOf rest := by
  induction ws with
  | nil => rfl
  | cons w ws ih =>
    have hw : w.toNat % 65536 = w.toNat := Nat.mod_eq_of_lt w.toNat_lt
    have hsplit : wordBytes (w :: ws) ++ rest =
        Buffer.low8 ((w.toNat : Int) / 256) :: Buffer.low8 (w.toNat : Int) ::
          (wordBytes ws ++ rest) := by
      simp [wordBytes, Buffer.bytes16]
    rw [hsplit, wordsOf, Buffer.read_bytes16, hw, ih]
    rfl

theorem wordsOf_mono {xs ys : List UInt8} (h : xs <+: ys) : wordsOf xs <+: wordsOf ys := by
  obtain ⟨zs, rfl⟩ := h
  fun_induction wordsOf xs with
  | case1 high low rest ih =>
    rw [cons_append, cons_append, wordsOf]
    exact (prefix_cons_inj _).2 ih
  | case2 => exact nil_prefix

theorem bootstrapWords_append {ws : List Nat} {r : Nat × List Nat} (more : List Nat)
    (h : bootstrapWords n ws = .ok r) : bootstrapWords n (ws ++ more) = .ok r := by
  fun_induction bootstrapWords n ws with
  | case1 handle count rest hlt => cases h
  | case2 handle count rest hlt =>
    cases h
    have hlen : ¬ (rest ++ more).length < count := by
      rw [length_append]
      omega
    rw [cons_append, cons_append, bootstrapWords, if_neg hlen,
      take_append_of_le_length (by omega)]
  | case3 n handle count rest ih =>
    rw [cons_append, cons_append, bootstrapWords]
    by_cases hlt : rest.length ≤ count
    · rw [drop_eq_nil_of_le hlt] at h
      cases n <;> cases h
    · rw [drop_append_of_le_length (by omega)]
      exact ih h
  | case4 => cases h

theorem fetch_of_at? {i : Nat} {c : Constant} (h : p.at? i = some c) : p.fetch i = .ok c := by
  rw [fetch, h]
  rfl

/-- The bootstrap method with a number, as it stands in the bytes of a pool. -/
def Links (p : Pool) (n handle : Nat) (args : List Nat) : Prop :=
  bootstrapWords n (wordsOf p.bootstrapBytes.toList) = .ok (handle, args)

theorem Extends.links (h : p.Extends q) {handle : Nat} {args : List Nat}
    (hp : p.Links n handle args) : q.Links n handle args := by
  obtain ⟨more, hmore⟩ := wordsOf_mono h.bootstraps
  unfold Links
  rw [← hmore]
  exact bootstrapWords_append more hp

theorem Block.words_toNat (hb : b.args.length < 65536) :
    b.words.map UInt16.toNat = b.method.toNat :: b.args.length :: b.args.map UInt16.toNat := by
  have hcount : (UInt16.ofNat b.args.length).toNat = b.args.length :=
    UInt16.toNat_ofNat_of_lt hb
  simp only [words, map_cons, hcount]

theorem bootstrapWords_blocks (hshort : Short bs) (n : Nat) :
    bootstrapWords n (wordsOf (blockBytes bs)) =
      match bs[n]? with
      | some b => .ok (b.method.toNat, b.args.map UInt16.toNat)
      | none => .error .outOfRange := by
  induction bs generalizing n with
  | nil => cases n <;> rfl
  | cons b bs ih =>
    have hb := hshort b mem_cons_self
    rw [blockBytes_cons, wordsOf_wordBytes_append, Block.words_toNat hb]
    cases n with
    | zero =>
      have hlen : ¬ (b.args.map UInt16.toNat ++
          wordsOf (blockBytes bs)).length < b.args.length := by
        simp
      rw [cons_append, cons_append, bootstrapWords, if_neg hlen,
        take_append_of_le_length (by simp), take_of_length_le (by simp)]
      rfl
    | succ n =>
      rw [cons_append, cons_append, bootstrapWords,
        drop_append_of_le_length (by simp), drop_eq_nil_of_le (by simp), nil_append,
        ih fun b hb => hshort b (mem_cons_of_mem _ hb)]
      rfl

theorem Holds.links_iff (h : p.Holds bs) (hshort : Short bs) {handle : Nat} {args : List Nat} :
    p.Links n handle args ↔
      ∃ b, bs[n]? = some b ∧ b.method.toNat = handle ∧ b.args.map UInt16.toNat = args := by
  rw [Links, h.bytes, bootstrapWords_blocks hshort]
  cases bs[n]? <;> simp

theorem Block.words_inj {c : Block} (h : b.words = c.words) : b = c := by
  obtain ⟨m, args⟩ := b
  obtain ⟨m', args'⟩ := c
  simp only [words, List.cons.injEq] at h
  rw [h.1, h.2.2]

theorem wordsOf_wordBytes (ws : List UInt16) : wordsOf (wordBytes ws) = ws.map UInt16.toNat := by
  simpa [wordsOf] using wordsOf_wordBytes_append ws []

theorem length_wordBytes (ws : List UInt16) : (wordBytes ws).length = 2 * ws.length := by
  simp [wordBytes, Buffer.bytes16, Nat.mul_comm]

/-- The count of the arguments keeps bootstrap methods apart: one whose arguments can be counted
does not run into the bytes behind another. -/
theorem Block.prefix_of_prefix {c : Block} {rest : List UInt8} (hb : b.args.length < 65536)
    (h : wordBytes b.words <+: wordBytes c.words ++ rest) :
    wordBytes b.words <+: wordBytes c.words := by
  refine prefix_of_prefix_length_le h (prefix_append _ _) ?_
  have hwords := wordsOf_mono h
  rw [wordsOf_wordBytes, wordsOf_wordBytes_append, Block.words_toNat hb] at hwords
  obtain ⟨more, hmore⟩ := hwords
  simp only [words, map_cons, cons_append, List.cons.injEq] at hmore
  have hcount : b.args.length = c.args.length % 65536 := hmore.2.1.trans UInt16.toNat_ofNat'
  have hle : b.args.length ≤ c.args.length := hcount ▸ Nat.mod_le _ _
  rw [length_wordBytes, length_wordBytes]
  simp only [words, length_cons]
  omega

theorem Block.eq_of_prefix {c : Block} {rest : List UInt8} (hb : b.args.length < 65536)
    (hc : c.args.length < 65536) (h : wordBytes b.words <+: wordBytes c.words ++ rest) : b = c := by
  have hbytes := prefix_of_prefix hb h
  have hwords := wordsOf_mono hbytes
  rw [wordsOf_wordBytes, wordsOf_wordBytes, words_toNat hb, words_toNat hc] at hwords
  obtain ⟨more, hmore⟩ := hwords
  simp only [cons_append, List.cons.injEq] at hmore
  have hlen : (wordBytes b.words).length = (wordBytes c.words).length := by
    rw [length_wordBytes, length_wordBytes]
    simp [words, hmore.2.1]
  have heq := congrArg wordsOf (hbytes.eq_of_length hlen)
  rw [wordsOf_wordBytes, wordsOf_wordBytes] at heq
  exact words_inj (map_injective_iff.2 (fun _ _ h => UInt16.toNat_inj.1 h) heq)

theorem blockBytes_drop (hb : bs[n]? = some b) :
    (blockBytes bs).drop (blockBytes (bs.take n)).length = wordBytes b.words ++
    blockBytes (bs.drop (n + 1)) := by
  have hsplit : bs = bs.take n ++ b :: bs.drop (n + 1) := by
    obtain ⟨hlt, rfl⟩ := List.getElem?_eq_some_iff.1 hb
    rw [← drop_eq_getElem_cons hlt, take_append_drop]
  have hbytes : blockBytes bs =
      blockBytes (bs.take n) ++ (wordBytes b.words ++ blockBytes (bs.drop (n + 1))) := by
    conv_lhs => rw [hsplit]
    rw [blockBytes_append, blockBytes_cons]
  rw [hbytes, drop_left]

/-! ## Looking for bootstrap methods -/

/-- The pool with the words of one more bootstrap method. -/
def withWords (p : Pool) (ws : List UInt16) : Pool :=
  { p with bootstrapBytes := ws.foldl (fun b w => b.putShort w.toNat) p.bootstrapBytes }

theorem toList_withWords (p : Pool) (ws : List UInt16) :
    (p.withWords ws).bootstrapBytes.toList = p.bootstrapBytes.toList ++ wordBytes ws := by
  have hfold (b : Buffer) : (ws.foldl (fun b w => b.putShort w.toNat) b).toList = b.toList ++
      wordBytes ws := by
    induction ws generalizing b with
    | nil => simp [wordBytes]
    | cons w ws ih =>
      rw [foldl_cons, ih]
      simp [wordBytes, Buffer.bytes16]
  exact hfold _

theorem bootstrapFrom_eq (p : Pool) (start : Nat) :
    p.bootstrapFrom start = p.bootstrapBytes.toList.drop start := by
  rw [bootstrapFrom, Array.toList_extract, List.extract_eq_take_drop]
  exact take_of_length_le (by simp)

@[simp] theorem bootstrapFrom_withWords (p : Pool) (ws : List UInt16) :
    (p.withWords ws).bootstrapFrom p.bootstrapBytes.size = wordBytes ws := by
  rw [bootstrapFrom_eq, toList_withWords]
  exact drop_left' (by simp [Buffer.size, Buffer.toList])

/-- What is compared with new words where an entry says. -/
theorem Holds.slice (h : p.Holds bs) (hb : bs[n]? = some b) (ws : List UInt16) (len : Nat) :
    ((p.withWords ws).bootstrapBytes.bytes.extract (b.keyBehind (bs.take n)).number.toNat
      ((b.keyBehind (bs.take n)).number.toNat + len)).toList =
        (wordBytes b.words ++ (blockBytes (bs.drop (n + 1)) ++ wordBytes ws)).take len := by
  have hle : (blockBytes (bs.take n)).length ≤ (blockBytes bs).length := by
    conv_rhs => rw [← take_append_drop n bs, blockBytes_append, length_append]
    exact Nat.le_add_right _ _
  have hbytes : (p.withWords ws).bootstrapBytes.bytes.toList = blockBytes bs ++ wordBytes ws :=
    (toList_withWords p ws).trans (by rw [h.bytes])
  have hnumber : (b.keyBehind (bs.take n)).number.toNat = (blockBytes (bs.take n)).length := rfl
  rw [Array.toList_extract, List.extract_eq_take_drop, Nat.add_sub_cancel_left, hbytes, hnumber,
    drop_append_of_le_length hle, blockBytes_drop hb, append_assoc]

/-- The words of a bootstrap method stand where the entry with its number says. -/
theorem Holds.stands (h : p.Holds bs) (hb : bs[n]? = some b) :
    ∃ k, (k, n) ∈ p.symbolTable.toList ∧ ¬k.IsPlain ∧
    wordBytes b.words <+: p.bootstrapBytes.toList.drop k.number.toNat := by
  refine ⟨b.keyBehind (bs.take n), (h.keys _ n Constant.isPlain_ofBootstrap).2 ⟨b, hb, rfl⟩,
    Constant.isPlain_ofBootstrap, ?_⟩
  have hnumber : (b.keyBehind (bs.take n)).number.toNat = (blockBytes (bs.take n)).length := rfl
  rw [hnumber, h.bytes, blockBytes_drop hb]
  exact prefix_append _ _

/-- Some bootstrap method is found for one that is there. -/
theorem Holds.isSome_same (h : p.Holds bs) (hb : bs[n]? = some b) :
    ((p.withWords b.words).sameBootstrap? p.bootstrapBytes.size).isSome := by
  have hkey := (h.keys (b.keyBehind (bs.take n)) n Constant.isPlain_ofBootstrap).2 ⟨b, hb, rfl⟩
  rw [sameBootstrap?, bootstrapFrom_withWords]
  refine SymbolTable.isSome_find? (e := (b.keyBehind (bs.take n), n)) hkey ?_
  simp only [Bool.and_eq_true, beq_iff_eq]
  exact ⟨⟨rfl, rfl⟩, by rw [h.slice hb, take_left]⟩

/-- What is found begins with the bytes that are looked for, unless it ends before. -/
theorem Holds.exists_of_same (h : p.Holds bs)
    (hsame : (p.withWords b.words).sameBootstrap? p.bootstrapBytes.size = some n) :
    ∃ c, bs[n]? = some c ∧ ∃ rest, wordBytes b.words <+: wordBytes c.words ++ rest := by
  rw [sameBootstrap?, bootstrapFrom_withWords] at hsame
  obtain ⟨k, hk, hfound⟩ := SymbolTable.exists_of_find? hsame
  simp only [Bool.and_eq_true, beq_iff_eq] at hfound
  obtain ⟨⟨hkind, -⟩, hslice⟩ := hfound
  obtain ⟨c, hc, rfl⟩ := (h.keys k n fun h => h hkind).1 hk
  rw [h.slice hc] at hslice
  exact ⟨c, hc, _, hslice ▸ take_prefix _ _⟩

/-- Bootstrap methods whose arguments can be counted are found under their own numbers only. -/
theorem Holds.same_iff (h : p.Holds bs) (hshort : Short bs) (hb : b.args.length < 65536) :
    (p.withWords b.words).sameBootstrap? p.bootstrapBytes.size = some n ↔ bs[n]? = some b := by
  have hsound {m : Nat} (hm : (p.withWords b.words).sameBootstrap? p.bootstrapBytes.size = some m) :
      bs[m]? = some b := by
    obtain ⟨c, hc, _, hprefix⟩ := h.exists_of_same hm
    rw [hc, Block.eq_of_prefix hb (hshort c (mem_of_getElem? hc)) hprefix]
  refine ⟨hsound, fun hn => ?_⟩
  obtain ⟨m, hm⟩ := Option.isSome_iff_exists.1 (h.isSome_same hn)
  have hlt := (List.getElem?_eq_some_iff.1 (hsound hm)).1
  rw [hm, (List.getElem?_inj hlt h.nodup).1 ((hsound hm).trans hn.symm)]

/-! ## Sites -/

/-- The bootstrap method with a number has a handle and arguments. -/
def Site (p : Pool) (n : Nat) (method : Constant) (args : List Constant) : Prop :=
  ∃ handle is, p.Links n handle is ∧ p.at? handle = some method ∧
    Forall₂ (fun i c => p.at? i = some c) is args

theorem Site.mono (h : p.Extends q) (hs : p.Site n method args) : q.Site n method args := by
  obtain ⟨handle, is, hlinks, hmethod, hargs⟩ := hs
  exact ⟨handle, is, h.links hlinks, h.at? hmethod, hargs.imp fun _ _ hi => h.at? hi⟩

theorem Site.functional {method' : Constant} {args' : List Constant} (h : p.Site n method args)
    (h' : p.Site n method' args') : method = method' ∧ args = args' := by
  obtain ⟨handle, is, hlinks, hmethod, hargs⟩ := h
  obtain ⟨handle', is', hlinks', hmethod', hargs'⟩ := h'
  unfold Links at hlinks hlinks'
  rw [hlinks] at hlinks'
  cases hlinks'
  refine ⟨Option.some.inj (hmethod.symm.trans hmethod'), ?_⟩
  clear hlinks
  induction hargs generalizing args' with
  | nil => cases hargs'; rfl
  | cons hi _ ih =>
    cases hargs' with
    | cons hi' hrest =>
      rw [Option.some.inj (hi.symm.trans hi'), ih hrest]

theorem Site.injective (hp : p.Wf) {n' : Nat} (h : p.Site n method args)
    (h' : p.Site n' method args) : n = n' := by
  obtain ⟨handle, is, hlinks, hmethod, hargs⟩ := h
  obtain ⟨handle', is', hlinks', hmethod', hargs'⟩ := h'
  obtain rfl := hp.index_unique hmethod hmethod'
  obtain rfl : is = is' := by
    clear hlinks hlinks'
    induction hargs generalizing is' with
    | nil => cases hargs'; rfl
    | cons hi _ ih =>
      cases hargs' with
      | cons hi' hrest => rw [hp.index_unique hi hi', ih _ hrest]
  obtain ⟨bs, hbs, hshort⟩ := hp.blocks
  obtain ⟨b, hb, hm, ha⟩ := (hbs.links_iff (hshort trivial)).1 hlinks
  obtain ⟨b', hb', hm', ha'⟩ := (hbs.links_iff (hshort trivial)).1 hlinks'
  have hword : Function.Injective UInt16.toNat := fun _ _ h => UInt16.toNat_inj.1 h
  have hbb : b = b' := by
    obtain ⟨m, as⟩ := b
    obtain ⟨m', as'⟩ := b'
    rw [← hm'] at hm
    rw [← ha'] at ha
    rw [Block.mk.injEq]
    exact ⟨hword hm, hword.list_map ha⟩
  subst hbb
  exact (List.getElem?_inj (List.getElem?_eq_some_iff.1 hb).1 hbs.nodup).1 (hb.trans hb'.symm)

theorem Short.append (h : Short bs) (hb : b.args.length < 65536) : Short (bs ++ [b]) := by
  intro c hc
  rcases mem_append.1 hc with hc | hc
  · exact h c hc
  · obtain rfl := mem_singleton.1 hc
    exact hb

def addBlock (p : Pool) (b : Block) : Pool :=
  { p.withWords b.words with
    bootstrapCount := p.bootstrapCount + 1
    symbolTable := p.symbolTable.put (.ofBootstrap (wordBytes b.words) p.bootstrapBytes.size)
      p.bootstrapCount p.entries.size }

theorem Holds.addBlock (h : p.Holds bs) (hnew : b ∉ bs) : (p.addBlock b).Holds (bs ++ [b]) where
  bytes := by
    rw [blockBytes_append, ← h.bytes]
    exact (toList_withWords p b.words).trans (by simp [blockBytes])
  count := by simp [Pool.addBlock, h.count]
  nodup := nodup_append.2 ⟨h.nodup,
    by simp, fun c hc d hd => by rintro rfl; exact hnew (mem_singleton.1 hd ▸ hc)⟩
  keys k n hk := by
    have hlen : p.bootstrapBytes.size = (blockBytes bs).length := by
      rw [← h.bytes]
      simp [Buffer.toList, Buffer.size]
    have hmem : (k, n) ∈ (p.addBlock b).symbolTable.toList ↔
        (k = b.keyBehind bs ∧ n = bs.length) ∨ (k, n) ∈ p.symbolTable.toList := by
      refine SymbolTable.mem_put.trans (or_congr_left ?_)
      rw [Prod.mk.injEq, hlen, h.count]
      rfl
    rw [hmem, h.keys k n hk]
    rcases Nat.lt_trichotomy n bs.length with hlt | rfl | hgt
    · rw [getElem?_append_left hlt, take_append_of_le_length hlt.le]
      exact or_iff_right fun h => absurd h.2 hlt.ne
    · simp
    · have hall : (bs ++ [b]).length ≤ n := by
        rw [length_append]
        exact hgt
      rw [getElem?_eq_none hgt.le, getElem?_eq_none hall]
      simp [hgt.ne']

variable {counted : Prop}

theorem Wf.addBlock (hp : p.Wf { counted }) (hbs : p.Holds bs) (hshort : counted → Short bs)
    (hnew : b ∉ bs) (hb : counted → b.args.length < 65536) :
    (p.addBlock b).Holds (bs ++ [b]) ∧
      Registers 0 p (p.addBlock b) { site := some p.bootstrapCount, counted } := by
  have hext : p.Extends (p.addBlock b) :=
    ⟨prefix_rfl, prefix_rfl, ⟨_, (toList_withWords p b.words).symm⟩, Nat.le_succ _,
      fun _ h => SymbolTable.mem_put.2 (.inr h), fun _ h => h⟩
  have hindex (c : Constant) (i : Nat) : (p.addBlock b).index? c = some i ↔ p.at? i = some c := by
    have hput : (p.addBlock b).index? c = if c.key.agrees _ then some p.bootstrapCount
        else p.index? c :=
      hp.functional.get?_put (fun h => (Constant.isPlain_ofBootstrap h).elim) c.key_isPlain
    rw [← hp.index, hput, if_neg]
    exact fun h => c.key_isPlain (TableKey.kind_eq_of_agrees h)
  obtain ⟨chunks, hspells, hspelled⟩ := hp.spelled
  have hbacked : ∀ n < p.bootstrapCount + 1, some p.bootstrapCount = some n ∨
      ∃ i name desc, p.at? i = some (.invokeDynamic name desc n) := by
    intro n hn
    rcases Nat.lt_or_eq_of_le (Nat.le_of_lt_succ hn) with hn | rfl
    · exact .inr ((hp.backed n hn).resolve_left (by simp))
    · exact .inl rfl
  have hholds := hbs.addBlock hnew
  exact ⟨hholds, ⟨hp.functional.put fun h => (Constant.isPlain_ofBootstrap h).elim, hindex,
    hp.slots, hp.bounded, ⟨chunks, hspells.imp fun _ _ h => h.mono hext, hspelled⟩, hp.ordered,
    ⟨_, hholds, fun h => (hshort h).append (hb h)⟩, hbacked, hp.texts⟩, hext,
    fun _ _ hd => .inl hd⟩

theorem Wf.loosen (hp : p.Wf { counted }) (n : Nat) : p.Wf { site := some n, counted } :=
  ⟨hp.functional, hp.index, hp.slots, hp.bounded, hp.spelled, hp.ordered, hp.blocks,
    fun k hk => .inr ((hp.backed k hk).resolve_left (by simp)), hp.texts⟩

theorem Wf.tie {i : Nat} {name desc : Text} (hp : p.Wf { site := some n, counted })
    (hi : p.at? i = some (.invokeDynamic name desc n)) : p.Wf { counted } := by
  refine ⟨hp.functional, hp.index, hp.slots, hp.bounded, hp.spelled, hp.ordered, hp.blocks,
    fun k hk => .inr ?_, hp.texts⟩
  rcases hp.backed k hk with h | h
  · obtain rfl := Option.some.inj h
    exact ⟨i, name, desc, hi⟩
  · exact h

/-- Without a failure the number of bootstrap methods fits two bytes: each has a call site, and the
sites have different indices. -/
theorem Wf.bootstrapCount_lt (hp : p.Wf { counted }) (hf : p.failure = none) :
    p.bootstrapCount < 65536 := by
  have hsite (n : Fin p.bootstrapCount) : ∃ i : Fin p.entries.size, ∃ name desc,
      p.at? i = some (.invokeDynamic name desc n) := by
    obtain ⟨i, name, desc, hi⟩ := (hp.backed n n.isLt).resolve_left (by simp)
    have hlt := (List.getElem?_eq_some_iff.1 (at?_eq_some.1 hi)).1
    exact ⟨⟨i, by simpa using hlt⟩, name, desc, hi⟩
  choose site name desc hsite using hsite
  have hinj : Function.Injective site := by
    intro m n h
    have hm := hsite m
    rw [h, hsite n] at hm
    simp only [Option.some.injEq, Constant.invokeDynamic.injEq] at hm
    exact Fin.ext hm.2.2.symm
  have hle := Fintype.card_le_of_injective site hinj
  rw [Fintype.card_fin, Fintype.card_fin] at hle
  have hmax : p.entries.size ≤ 0xFFFF := hp.bounded hf
  omega

/-- A number is kept for the bootstrap method with a handle and arguments.  If the arguments can be
counted, its words stand where the entry with the number says. -/
def Numbers (p : Pool) (n : Nat) (method : Constant) (args : List Constant) : Prop :=
  n < p.bootstrapCount ∧ ∃ m is, p.at? m = some method ∧
    Forall₂ (fun i c => p.at? i = some c) is args ∧
    (args.length < 65536 → ∃ k, (k, n) ∈ p.symbolTable.toList ∧ ¬k.IsPlain ∧
      wordBytes ((m :: is.length :: is).map UInt16.ofNat) <+:
        p.bootstrapBytes.toList.drop k.number.toNat)

theorem Numbers.mono (h : p.Extends q) (hn : p.Numbers n method args) :
    q.Numbers n method args := by
  obtain ⟨hlt, m, is, hm, his, hwords⟩ := hn
  refine ⟨Nat.lt_of_lt_of_le hlt h.count, m, is, h.at? hm, his.imp fun _ _ hi => h.at? hi,
    fun hargs => ?_⟩
  obtain ⟨k, hk, hplain, hprefix⟩ := hwords hargs
  exact ⟨k, h.table _ hk, hplain, hprefix.trans (h.bootstraps.drop _)⟩

/-- Without a failure a bootstrap method can be read back under the number that is kept for it: the
indices fit its words. -/
theorem Numbers.site (hp : p.Wf) (hf : p.failure = none) (hargs : args.length < 65536)
    (h : p.Numbers n method args) : p.Site n method args := by
  obtain ⟨-, m, is, hm, his, hwords⟩ := h
  obtain ⟨k, hk, hplain, hprefix⟩ := hwords hargs
  obtain ⟨bs, hbs, hshort⟩ := hp.blocks
  obtain ⟨b, hb, rfl⟩ := (hbs.keys k n hplain).1 hk
  have hlen : is.length < 65536 := his.length_eq ▸ hargs
  have hblock : b = ⟨UInt16.ofNat m, is.map UInt16.ofNat⟩ := by
    have hnumber : (b.keyBehind (bs.take n)).number.toNat = (blockBytes (bs.take n)).length := rfl
    rw [hnumber, hbs.bytes, blockBytes_drop hb] at hprefix
    have hwritten : wordBytes (⟨UInt16.ofNat m, is.map UInt16.ofNat⟩ : Block).words <+:
        wordBytes b.words ++ blockBytes (bs.drop (n + 1)) := by
      simpa [Block.words] using hprefix
    exact (Block.eq_of_prefix (by simpa using hlen) (hshort trivial b (mem_of_getElem? hb))
      hwritten).symm
  have hword {i : Nat} {d : Constant} (hi : p.at? i = some d) : (UInt16.ofNat i).toNat = i := by
    rw [UInt16.toNat_ofNat']
    exact Nat.mod_eq_of_lt (hp.at?_lt hf hi)
  have hindices : (is.map UInt16.ofNat).map UInt16.toNat = is := by
    clear hwords hprefix hblock hlen hargs
    induction his with
    | nil => rfl
    | cons hi _ ih => rw [map_cons, map_cons, ih, hword hi]
  refine ⟨m, is, (hbs.links_iff (hshort trivial)).2 ⟨b, hb, ?_, ?_⟩, hm, his⟩
  · rw [hblock, hword hm]
  · rw [hblock, hindices]

end Pool

namespace PoolM

open Pool

variable {slack : Slack} {counted : Prop}

variable {method : Handle} {args : List Value} {i : Nat} {p q : Pool}

theorem ends_value {v : Value} (hp : p.Wf slack) (e : Ends (value v) p i q) :
    Registers 4 p q slack ∧
      (q.failure = none → ∃ c, v.constant? = some c ∧ q.at? i = some c) := by
  obtain ⟨o, _, he, h⟩ := e.bind
  have hv := ends_valueEntry hp he
  cases o with
  | none =>
    obtain ⟨rfl, rfl⟩ := h.pure
    refine ⟨hv.registers, fun hq => ?_⟩
    obtain ⟨i, c, hnone, -⟩ := hv.constant hq
    cases hnone
  | some r =>
    obtain ⟨rfl, rfl⟩ := h.pure
    refine ⟨hv.registers, fun hq => ?_⟩
    obtain ⟨i, c, hsome, hc⟩ := hv.constant hq
    cases hsome
    exact ⟨c, hc, hv.entry _ _ rfl⟩

theorem ends_values {vs : List Value} {is : List Nat} (hp : p.Wf slack)
    (e : Ends (values vs) p is q) : Registers 4 p q slack ∧ is.length = vs.length ∧
      (q.failure = none → ∃ cs, Forall₂ (fun v c => v.constant? = some c) vs cs ∧
        Forall₂ (fun i c => q.at? i = some c) is cs) := by
  induction vs generalizing p is with
  | nil =>
    obtain ⟨rfl, rfl⟩ := e.pure
    exact ⟨.refl hp, rfl, fun _ => ⟨[], .nil, .nil⟩⟩
  | cons v vs ih =>
    simp only [values, ends_bind, ends_pure] at e
    obtain ⟨i, p₁, h₁, is', p₂, h₂, rfl, rfl⟩ := e
    obtain ⟨hreg, hv⟩ := ends_value hp h₁
    obtain ⟨hreg', hlen, hvs⟩ := ih hreg.wf h₂
    refine ⟨hreg.trans hreg', by simp [hlen], fun hq => ?_⟩
    obtain ⟨c, hc, hi⟩ := hv (hreg'.extend.no_failure hq)
    obtain ⟨cs, hcs, his⟩ := hvs hq
    exact ⟨c :: cs, .cons hc hcs, .cons (hreg'.extend.at? hi) his⟩

/-- A bootstrap method is found or is a new one.  The words of one that is found are taken back. -/
theorem bootstrap_cases {n : Nat} (e : Ends (bootstrap method args) p n q) :
    ∃ m c p₁ is p₂, Ends (handleEntry method) p (m, c) p₁ ∧ Ends (values args) p₁ is p₂ ∧
      ∃ b : Block, b = ⟨UInt16.ofNat m, is.map UInt16.ofNat⟩ ∧
        ((p₂.withWords b.words).sameBootstrap? p₂.bootstrapBytes.size = some n ∧ q = p₂ ∨
          (p₂.withWords b.words).sameBootstrap? p₂.bootstrapBytes.size = none ∧
            n = p₂.bootstrapCount ∧ q = p₂.addBlock b) := by
  simp only [bootstrap, methodHandle, ends_bind, ends_pure, ends_pool_get, ends_pool_modify] at e
  obtain ⟨_, p₁, ⟨⟨m, c⟩, _, h₁, rfl, rfl⟩, is, p₂, h₂, _, _, ⟨rfl, rfl⟩, _, _, rfl, _, _,
    ⟨rfl, rfl⟩, e⟩ := e
  refine ⟨m, c, _, is, p₂, h₁, h₂, _, rfl, ?_⟩
  have hwords : (m :: is.length :: is).map UInt16.ofNat = Block.words ⟨UInt16.ofNat m,
      is.map UInt16.ofNat⟩ := by
    simp [Block.words]
  simp only [hwords] at e
  generalize hb : (⟨UInt16.ofNat m, is.map UInt16.ofNat⟩ : Block) = b at e ⊢
  cases hsame : (p₂.withWords b.words).sameBootstrap? p₂.bootstrapBytes.size with
  | some k =>
    unfold withWords at hsame
    simp only [hsame] at e
    obtain ⟨_, _, hq, e⟩ := e.bind
    obtain ⟨rfl, rfl⟩ := e.pure
    exact .inl ⟨rfl, (ends_pool_modify.1 hq).symm⟩
  | none =>
    unfold withWords at hsame
    simp only [hsame, ends_bind, ends_pool_get, ends_pool_modify, ends_pure] at e
    obtain ⟨_, _, ⟨rfl, rfl⟩, _, _, rfl, rfl, rfl⟩ := e
    refine .inr ⟨rfl, rfl, ?_⟩
    have hbytes := bootstrapFrom_withWords p₂ b.words
    unfold withWords at hbytes
    rw [hbytes]
    rfl

theorem ends_bootstrap {n : Nat} (hp : p.Wf { counted }) (hargs : counted → args.length < 65536)
    (e : Ends (bootstrap method args) p n q) :
    Registers 4 p q { site := some n, counted } ∧ n < q.bootstrapCount ∧
      (q.failure = none → isHandleKind method.kind ∧
        ∃ cs, Forall₂ (fun v c => v.constant? = some c) args cs ∧
          q.Numbers n (handleConstant method) cs) := by
  obtain ⟨m, c, p₁, is, p₂, h₁, h₂, b, hb, hcases⟩ := bootstrap_cases e
  obtain ⟨hreg₁, hat, -, hc⟩ := ends_handleEntry hp h₁
  obtain ⟨hreg₂, hlen, hcs⟩ := ends_values hreg₁.wf h₂
  have hreg := hreg₁.trans hreg₂
  obtain ⟨bs, hbs, hshort⟩ := hreg₂.wf.blocks
  have hwords : (m :: is.length :: is).map UInt16.ofNat = b.words := by
    simp [hb, Block.words]
  have hlenb : b.args.length = is.length := by
    simp [hb]
  -- what the entries are does not depend on the number
  have hmeans : p₂.failure = none → isHandleKind method.kind ∧
      ∃ cs, Forall₂ (fun v c => v.constant? = some c) args cs ∧
        p₂.at? m = some (handleConstant method) ∧
          Forall₂ (fun i c => p₂.at? i = some c) is cs := by
    intro hq
    obtain ⟨cs, hvs, his⟩ := hcs hq
    obtain ⟨hkind, rfl⟩ := hc (hreg₂.extend.no_failure hq)
    exact ⟨hkind, cs, hvs, hreg₂.extend.at? hat, his⟩
  rcases hcases with ⟨hsame, rfl⟩ | ⟨hnone, rfl, rfl⟩
  · obtain ⟨d, hd, _, hprefix⟩ := hbs.exists_of_same hsame
    have hlt : n < q.bootstrapCount := hbs.count ▸ (List.getElem?_eq_some_iff.1 hd).1
    refine ⟨⟨hreg.wf.loosen _, hreg.extend, hreg.rank⟩, hlt, fun hq => ?_⟩
    obtain ⟨hkind, cs, hvs, hm, his⟩ := hmeans hq
    refine ⟨hkind, cs, hvs, hlt, m, is, hm, his, fun hcs => ?_⟩
    have hshortb : b.args.length < 65536 := by
      rwa [hlenb, his.length_eq]
    obtain ⟨k, hk, hplain, hstands⟩ := hbs.stands hd
    rw [hwords]
    exact ⟨k, hk, hplain, (Block.prefix_of_prefix hshortb hprefix).trans hstands⟩
  · have hnew : b ∉ bs := by
      intro hmem
      obtain ⟨k, hk⟩ := mem_iff_getElem?.1 hmem
      have hsome := hbs.isSome_same hk
      rw [hnone] at hsome
      cases hsome
    obtain ⟨hholds, hadd⟩ := hreg₂.wf.addBlock hbs hshort hnew fun h => by
      rw [hlenb, hlen]
      exact hargs h
    refine ⟨hreg.trans (hadd.mono (Nat.zero_le _)), Nat.lt_succ_self _, fun hq => ?_⟩
    obtain ⟨hkind, cs, hvs, hm, his⟩ := hmeans hq
    refine ⟨hkind, cs, hvs, Nat.lt_succ_self _, m, is, hm, his, fun _ => ?_⟩
    rw [hwords]
    exact hholds.stands (by simp [hbs.count])

theorem numbers_dynamicEntry {name desc : Text} {c : Constant} (hp : p.Wf { counted })
    (hargs : counted → args.length < 65536)
    (e : Ends (dynamicEntry name desc method args) p (i, c) q) :
    Registers 4 p q { counted } ∧ ∃ n, c = .invokeDynamic name desc n ∧ q.at? i = some c ∧
      (q.failure = none → isHandleKind method.kind ∧
        ∃ cs, Forall₂ (fun v c => v.constant? = some c) args cs ∧
          q.Numbers n (handleConstant method) cs) := by
  simp only [dynamicEntry, ends_bind, ends_pure, Prod.mk.injEq] at e
  obtain ⟨n, p₁, h₁, _, _, h₂, ⟨rfl, rfl⟩, rfl⟩ := e
  obtain ⟨hreg₁, hn, hnumbers⟩ := ends_bootstrap hp hargs h₁
  have hwrites : Writes (fun p => n < p.bootstrapCount) (.invokeDynamic name desc n) (do
      let nt ← nameAndType name desc
      emit fun b => (b.putTagged 18 n).putShort nt) :=
    writes_bind (fun hext h => Nat.lt_of_lt_of_le h hext.count) (interns_nameAndType name desc)
      (Nat.lt_succ_self 1) fun _ =>
        writes_emit (fun _ => by simp [Buffer.low8, Buffer.bytes16]; rfl)
          (fun _ h => .invokeDynamic h.1 h.2) (by simp)
  obtain ⟨hreg₂, hat⟩ := registers_intern hwrites hreg₁.wf hn h₂
  have hreg := hreg₁.trans (hreg₂.mono (by simp [Constant.rank]))
  refine ⟨⟨hreg.wf.tie hat, hreg.extend, hreg.rank⟩, n, rfl, hat, fun hq => ?_⟩
  obtain ⟨hkind, cs, hcs, hs⟩ := hnumbers (hreg₂.extend.no_failure hq)
  exact ⟨hkind, cs, hcs, hs.mono hreg₂.extend⟩

theorem ends_dynamicEntry {name desc : Text} {c : Constant} (hp : p.Wf)
    (hargs : args.length < 65536) (e : Ends (dynamicEntry name desc method args) p (i, c) q) :
    Registers 4 p q ∧ ∃ n, c = .invokeDynamic name desc n ∧ q.at? i = some c ∧
      (q.failure = none → isHandleKind method.kind ∧
        ∃ cs, Forall₂ (fun v c => v.constant? = some c) args cs ∧
          q.Site n (handleConstant method) cs) := by
  obtain ⟨hreg, n, hc, hat, hnumbers⟩ := numbers_dynamicEntry hp (fun _ => hargs) e
  refine ⟨hreg, n, hc, hat, fun hq => ?_⟩
  obtain ⟨hkind, cs, hcs, hn⟩ := hnumbers hq
  exact ⟨hkind, cs, hcs, hn.site hreg.wf hq (hcs.length_eq ▸ hargs)⟩

end PoolM

end ClassAssembler
