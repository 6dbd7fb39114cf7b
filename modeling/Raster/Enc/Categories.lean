import Raster.Enc.CharProperty
import Mathlib.Data.List.TakeWhile
import Mathlib.Tactic.Tauto

/-!
# What compiled properties mean

The file of `compile` is read back by `open`, and what its words say is compared with the configuration. The bits of
a code point are those of the ranges that contain it. `encode` adds the bits of the categories of a range, up to one
that is not defined, so that a category that is listed twice carries over to the next bit, and categories whose
numbers are 32 apart share a bit.
-/

namespace Raster.CharProperty

/-! ### Records of one length -/

section records

variable {α β : Type*} {f : α → List β} {w : Nat} {l : List α}

theorem length_flatMap_const (hf : ∀ x ∈ l, (f x).length = w) : (l.flatMap f).length = w * l.length := by
  induction l with
  | nil => rfl
  | cons x l ih =>
    obtain ⟨hx, hl⟩ := List.forall_mem_cons.mp hf
    rw [List.flatMap_cons, List.length_append, hx, ih hl, List.length_cons, Nat.mul_succ, Nat.add_comm]

theorem drop_flatMap_const (hf : ∀ x ∈ l, (f x).length = w) (i : Nat) :
    (l.flatMap f).drop (w * i) = (l.drop i).flatMap f := by
  induction i generalizing l with
  | zero => rfl
  | succ i ih =>
    cases l with
    | nil => rw [List.flatMap_nil, List.drop_nil, List.drop_nil, List.flatMap_nil]
    | cons x l =>
      obtain ⟨hx, hl⟩ := List.forall_mem_cons.mp hf
      rw [List.flatMap_cons, Nat.mul_succ, Nat.add_comm, ← List.drop_drop, ← hx, List.drop_left, hx, ih hl, List.drop_succ_cons]

theorem drop_flatMap_eq_append (hf : ∀ x ∈ l, (f x).length = w) {i : Nat} (hi : i < l.length) :
    (l.flatMap f).drop (w * i) = f l[i] ++ (l.drop (i + 1)).flatMap f := by
  rw [drop_flatMap_const hf, List.drop_eq_getElem_cons hi, List.flatMap_cons]

end records

/-! ### The file is read back -/

/-- The string that a `char*` to a text with `NUL` behind it stands for. -/
def cString (text : List UInt8) : List UInt8 := text.takeWhile (· ≠ 0)

theorem cString_append (text rest : List UInt8) : cString (text ++ 0 :: rest) = cString text := by
  unfold cString
  induction text with
  | nil => rfl
  | cons c text ih =>
    rw [List.cons_append, List.takeWhile_cons, List.takeWhile_cons, ih]

theorem cString_eq_self_iff {text : List UInt8} : cString text = text ↔ 0 ∉ text := by
  unfold cString
  rw [List.takeWhile_eq_self_iff]
  constructor
  · intro h hzero
    exact absurd (h 0 hzero) (by decide)
  · intro h c hc
    have hne : c ≠ 0 := fun hzero => h (hzero ▸ hc)
    simpa using hne

variable {out : Compiled} {behind : List UInt8}

/-- The record of a name in the file. -/
def nameRecord (c : List UInt8) : List UInt8 := c ++ List.replicate (maxCategoryStrlen - c.length) 0

theorem length_nameRecord (conf : Conf) : ∀ c ∈ conf.carray, (nameRecord c).length = 32 := by
  intro c hc
  have hlen := conf.short c hc
  unfold maxCategoryStrlen at hlen
  rw [nameRecord, List.length_append, List.length_replicate, maxCategoryStrlen]
  omega

theorem cString_nameRecord (conf : Conf) (rest : List UInt8) : ∀ c ∈ conf.carray, cString (nameRecord c ++ rest) = cString c := by
  intro c hc
  have hlen := conf.short c hc
  obtain ⟨k, hk⟩ : ∃ k, maxCategoryStrlen - c.length = k + 1 := ⟨maxCategoryStrlen - c.length - 1, by omega⟩
  rw [nameRecord, hk, List.replicate_succ, List.append_assoc, List.cons_append, cString_append]

theorem length_le32 (x : UInt32) : (le32 x).length = 4 := rfl

/-- The words of the table. -/
def tableWords (table : Table) : List UInt8 := (List.range 0xffff).flatMap fun c => le32 (table (UInt16.ofNat c))

theorem file_eq (out : Compiled) :
    out.file = le32 (UInt32.ofNat out.conf.carray.length) ++ out.conf.carray.flatMap nameRecord ++ tableWords out.table := rfl

theorem length_tableWords (table : Table) : (tableWords table).length = 4 * 0xffff := by
  rw [tableWords, length_flatMap_const fun c _ => length_le32 _, List.length_range]

theorem length_file (out : Compiled) : out.file.length = 4 + 32 * out.conf.carray.length + 4 * 0xffff := by
  rw [file_eq, List.length_append, List.length_append, length_le32, length_flatMap_const (length_nameRecord out.conf),
    length_tableWords]

theorem count_file (out : Compiled) : count out.file behind = UInt32.ofNat out.conf.carray.length := by
  rw [count, file_eq, List.append_assoc, List.append_assoc, List.take_left' (length_le32 _), ofLe32_le32]

theorem toNat_offset (n : Nat) : ((4 : UInt32) + 32 * UInt32.ofNat n).toNat = (4 + 32 * n) % 2 ^ 32 := by
  have hfour : (4 : UInt32).toNat = 4 := rfl
  have hmul : (32 : UInt32).toNat = 32 := rfl
  rw [UInt32.toNat_add, UInt32.toNat_mul, UInt32.toNat_ofNat', hfour, hmul]
  omega

theorem size_file_iff (out : Compiled) :
    out.file.length = fileSize (count out.file behind) ↔ out.conf.carray.length < 2 ^ 27 := by
  rw [count_file, fileSize, toNat_offset, length_file]
  omega

theorem collect_fst (n : Nat) (offset : UInt32) :
    (collect n offset).1 = (List.range n).map fun i => offset + 32 * UInt32.ofNat i := by
  induction n generalizing offset with
  | zero => rfl
  | succ n ih =>
    rw [collect, ih, List.range_succ_eq_map, List.map_cons, List.map_map]
    refine congrArg₂ List.cons (by simp) (List.map_congr_left fun i _ => ?_)
    simp only [Function.comp_apply, Nat.succ_eq_add_one, UInt32.ofNat_add]
    grind

section opened

variable (hcount : out.conf.carray.length < 2 ^ 27)

/-- What `open` gives for the file. -/
def opened (out : Compiled) : CharProperty :=
  ⟨out.file, (List.range out.conf.carray.length).map fun i => 4 + 32 * UInt32.ofNat i,
    4 + 32 * UInt32.ofNat out.conf.carray.length⟩

include hcount

theorem openFile_file : openFile out.file behind = some (opened out) := by
  refine openFile_eq_some_iff.mpr ⟨(size_file_iff out).mpr hcount, ?_⟩
  rw [count_file, collect_fst, UInt32.toNat_ofNat', Nat.mod_eq_of_lt (by omega)]
  rfl

theorem names_opened : (opened out).categories.map (opened out).name = out.conf.carray.map cString := by
  refine List.ext_getElem (by simp [opened]) fun i hi hi' => ?_
  have hi : i < out.conf.carray.length := by simpa using hi'
  rw [List.getElem_map, List.getElem_map]
  have hbound : i < (opened out).categories.length := by simpa [opened] using hi
  have hoffset : (opened out).categories[i] = 4 + 32 * UInt32.ofNat i := by simp [opened]
  rw [hoffset, name, toNat_offset, Nat.mod_eq_of_lt (by omega)]
  show cString (out.file.drop (4 + 32 * i)) = _
  have hrest : (le32 (UInt32.ofNat out.conf.carray.length) ++
      (out.conf.carray.flatMap nameRecord ++ tableWords out.table)).drop 4 =
      out.conf.carray.flatMap nameRecord ++ tableWords out.table := List.drop_left' (length_le32 _)
  rw [file_eq, List.append_assoc, ← List.drop_drop, hrest, List.drop_append_of_le_length,
    drop_flatMap_eq_append (length_nameRecord out.conf) hi, List.append_assoc,
    cString_nameRecord out.conf _ _ (List.getElem_mem hi)]
  rw [length_flatMap_const (length_nameRecord out.conf)]
  omega

theorem getCharInfo_opened {c : UInt16} (hc : c < 0xffff) : (opened out).getCharInfo c = some (out.table c) := by
  have hlt : c.toNat < 0xffff := UInt16.lt_iff_toNat_lt.mp hc
  have hmap : (opened out).map.toNat = 4 + 32 * out.conf.carray.length := by
    rw [opened, toNat_offset, Nat.mod_eq_of_lt (by omega)]
  rw [getCharInfo, hmap, wordAt, if_pos]
  · have hlen : (le32 (UInt32.ofNat out.conf.carray.length) ++ out.conf.carray.flatMap nameRecord).length =
        4 + 32 * out.conf.carray.length := by
      rw [List.length_append, length_le32, length_flatMap_const (length_nameRecord out.conf)]
    have hword : (tableWords out.table).drop (4 * c.toNat) = le32 (out.table c) ++
        ((List.range 0xffff).drop (c.toNat + 1)).flatMap fun c => le32 (out.table (UInt16.ofNat c)) := by
      rw [tableWords, drop_flatMap_eq_append (fun c _ => length_le32 _) (by rwa [List.length_range]), List.getElem_range,
        UInt16.ofNat_toNat]
    show some (ofLe32 ((out.file.drop _).take 4)) = _
    rw [file_eq, ← List.drop_drop, List.drop_left' hlen, hword, List.take_left' (length_le32 _), ofLe32_le32]
  · show _ ≤ out.file.length
    rw [length_file]
    omega

end opened

theorem openFile_file_eq_none (hcount : 2 ^ 27 ≤ out.conf.carray.length) : openFile out.file behind = none := by
  refine if_pos fun hsize => ?_
  have := (size_file_iff out).mp hsize
  omega

theorem getKeyInfo_opened (hcount : out.conf.carray.length < 2 ^ 27) (hnul : ∀ k ∈ out.conf.carray, 0 ∉ k) {k : List UInt8}
    (hk : k ∈ out.conf.carray) : some ((opened out).getKeyInfo k) = out.conf.cmap k := by
  have hnames : (opened out).categories.map (opened out).name = out.conf.carray := by
    rw [names_opened hcount]
    exact List.map_congr_left (fun c hc => cString_eq_self_iff.mpr (hnul c hc)) |>.trans (List.map_id _)
  have hid : (opened out).id k = out.conf.carray.idxOf? k := by
    rw [id, show k.takeWhile (· ≠ 0) = k from cString_eq_self_iff.mpr (hnul k hk), ← hnames, List.idxOf?, List.findIdx?_map]
    exact congrArg (List.findIdx? · (opened out).categories) (funext fun offset => (beq_eq_decide _ _).symm)
  obtain ⟨i, hi⟩ : ∃ i, out.conf.carray.idxOf? k = some i := by
    cases hidx : out.conf.carray.idxOf? k with
    | none => exact absurd hk (List.idxOf?_eq_none_iff.mp hidx)
    | some i => exact ⟨i, rfl⟩
  rw [getKeyInfo, hid, Conf.cmap, hi]
  rfl

/-! ### Bits -/

theorem isKindOf_or (a b x : CharInfo) : CharInfo.isKindOf (a ||| b) x = (a.isKindOf x || b.isKindOf x) := by
  have hdistrib : (a ||| b) &&& x = (a &&& x) ||| (b &&& x) := by
    apply UInt32.toBitVec_inj.mp
    simp only [UInt32.toBitVec_and, UInt32.toBitVec_or, BitVec.and_or_distrib_right]
  rw [CharInfo.isKindOf, hdistrib, Bool.eq_iff_iff]
  simp only [CharInfo.isKindOf, bne_iff_ne, Bool.or_eq_true, ne_eq, UInt32.or_eq_zero_iff]
  tauto

theorem isKindOf_zero (x : CharInfo) : CharInfo.isKindOf 0 x = false := by
  simp [CharInfo.isKindOf]

theorem toBitVec_ofPos (i : Nat) : (CharInfo.ofPos i).toBitVec = BitVec.twoPow 32 (i % 32) := by
  have hshift : ((UInt32.ofNat i).toBitVec % 32).toNat = i % 32 := by
    rw [BitVec.toNat_umod, UInt32.toNat_toBitVec, UInt32.toNat_ofNat']
    exact Nat.mod_mod_of_dvd i (by decide)
  rw [CharInfo.ofPos, UInt32.toBitVec_or, UInt32.toBitVec_shiftLeft, BitVec.twoPow_eq, BitVec.shiftLeft_eq', hshift]
  exact BitVec.zero_or

theorem ofPos_ne_zero (i : Nat) : CharInfo.ofPos i ≠ 0 := by
  intro h
  have hbit := congrArg (BitVec.getLsbD · (i % 32)) (congrArg UInt32.toBitVec h)
  rw [toBitVec_ofPos] at hbit
  simp [Nat.mod_lt] at hbit

theorem isKindOf_ofPos_iff (i j : Nat) : (CharInfo.ofPos i).isKindOf (.ofPos j) = true ↔ CharInfo.ofPos i = CharInfo.ofPos j := by
  have hj : j % 32 < 32 := Nat.mod_lt _ (by decide)
  constructor
  · intro h
    by_contra hne
    have hmod : i % 32 ≠ j % 32 := fun hmod => hne (UInt32.toBitVec_inj.mp (by rw [toBitVec_ofPos, toBitVec_ofPos, hmod]))
    have hand : (CharInfo.ofPos i &&& CharInfo.ofPos j).toBitVec = 0#32 := by
      rw [UInt32.toBitVec_and, toBitVec_ofPos, toBitVec_ofPos, BitVec.and_twoPow, BitVec.getLsbD_twoPow]
      simp [hmod]
    have hzero : CharInfo.ofPos i &&& CharInfo.ofPos j = 0 := UInt32.toBitVec_inj.mp hand
    simp [CharInfo.isKindOf, hzero] at h
  · intro h
    rw [h]
    simp [CharInfo.isKindOf, ofPos_ne_zero]

theorem add_eq_or {a b : CharInfo} (h : a.isKindOf b = false) : a + b = a ||| b := by
  have hand : a &&& b = 0 := by simpa [CharInfo.isKindOf] using h
  apply UInt32.toBitVec_inj.mp
  rw [UInt32.toBitVec_add, UInt32.toBitVec_or]
  exact BitVec.add_eq_or_of_and_eq_zero _ _ (congrArg UInt32.toBitVec hand)

/-! ### What a range marks and what it means -/

variable {conf : Conf}

/-- The bits of a range have the one of a category. -/
def Marks (conf : Conf) (range : CharRange) (k : List UInt8) : Prop :=
  ∃ info, conf.cmap k = some info ∧ (encode conf range.c).isKindOf info = true

/-- A range lists a category, and all that it lists are defined. -/
def Lists (conf : Conf) (range : CharRange) (k : List UInt8) : Prop := (∀ x ∈ range.c, x ∈ conf.carray) ∧ k ∈ range.c

/-- Nothing goes wrong with a range: its first category is not defined, or all are, each is listed once, and no other
category shares a bit with one of them. -/
def Plain (conf : Conf) (range : CharRange) : Prop :=
  (∃ x c, range.c = x :: c ∧ x ∉ conf.carray) ∨
  (∀ x ∈ range.c, x ∈ conf.carray) ∧ range.c.Nodup ∧
    ∀ x ∈ range.c, ∀ k ∈ conf.carray, conf.cmap k = conf.cmap x → k = x

theorem cmap_eq_none_iff {k : List UInt8} : conf.cmap k = none ↔ k ∉ conf.carray := by
  rw [Conf.cmap, Option.map_eq_none_iff, List.idxOf?_eq_none_iff]

theorem exists_cmap {k : List UInt8} (hk : k ∈ conf.carray) : ∃ i, conf.cmap k = some (.ofPos i) := by
  cases hidx : conf.carray.idxOf? k with
  | none => exact absurd hk (List.idxOf?_eq_none_iff.mp hidx)
  | some i => exact ⟨i, by rw [Conf.cmap, hidx, Option.map_some]⟩

theorem cmap_inj (hlen : conf.carray.length ≤ 32) {k k' : List UInt8} (hk : k ∈ conf.carray)
    (h : conf.cmap k' = conf.cmap k) : k' = k := by
  cases hj : conf.carray.idxOf? k with
  | none => exact absurd hk (List.idxOf?_eq_none_iff.mp hj)
  | some j =>
    cases hi : conf.carray.idxOf? k' with
    | none =>
      rw [Conf.cmap, Conf.cmap, hi, hj] at h
      cases h
    | some i =>
      rw [Conf.cmap, Conf.cmap, hi, hj, Option.map_some, Option.map_some, Option.some.injEq] at h
      obtain ⟨hilt, hik, -⟩ := List.idxOf?_eq_some_iff.mp hi
      obtain ⟨hjlt, hjk, -⟩ := List.idxOf?_eq_some_iff.mp hj
      have hbit := congrArg (BitVec.getLsbD · (i % 32)) (congrArg UInt32.toBitVec h)
      rw [toBitVec_ofPos, toBitVec_ofPos] at hbit
      simp only [BitVec.getLsbD_twoPow, Nat.mod_lt _ (show 0 < 32 by decide), decide_true, Bool.true_and, true_eq_decide_iff] at hbit
      have hij : i = j := by
        rw [Nat.mod_eq_of_lt (show j < 32 by omega), Nat.mod_eq_of_lt (show i < 32 by omega)] at hbit
        exact hbit.symm
      subst hij
      rw [← hik, ← hjk]

theorem plain_of_length_le (hlen : conf.carray.length ≤ 32) {range : CharRange} (hdef : ∀ x ∈ range.c, x ∈ conf.carray)
    (hnodup : range.c.Nodup) : Plain conf range :=
  Or.inr ⟨hdef, hnodup, fun x hx _ _ h => cmap_inj hlen (hdef x hx) h⟩

theorem isKindOf_encodeLoop {c : List (List UInt8)} (base x : CharInfo) (hdef : ∀ k ∈ c, k ∈ conf.carray) (hnodup : c.Nodup)
    (hshare : ∀ k ∈ c, ∀ k' ∈ c, conf.cmap k' = conf.cmap k → k' = k)
    (hbase : ∀ k ∈ c, ∀ info, conf.cmap k = some info → base.isKindOf info = false) :
    (encodeLoop conf c base).isKindOf x = true ↔
      base.isKindOf x = true ∨ ∃ k ∈ c, ∃ info, conf.cmap k = some info ∧ info.isKindOf x = true := by
  induction c generalizing base with
  | nil => simp [encodeLoop]
  | cons k c ih =>
    obtain ⟨hk, hdef⟩ := List.forall_mem_cons.mp hdef
    obtain ⟨hnot, hnodup⟩ := List.nodup_cons.mp hnodup
    obtain ⟨i, hi⟩ := exists_cmap hk
    have hsum : base + CharInfo.ofPos i = base ||| CharInfo.ofPos i := add_eq_or (hbase k List.mem_cons_self _ hi)
    have hrest : ∀ k' ∈ c, ∀ info, conf.cmap k' = some info → CharInfo.isKindOf (base ||| CharInfo.ofPos i) info = false := by
      intro k' hk' info hinfo
      rw [isKindOf_or, hbase k' (List.mem_cons_of_mem _ hk') info hinfo, Bool.false_or]
      obtain ⟨j, hj⟩ := exists_cmap (hdef k' hk')
      rw [hj] at hinfo
      cases hinfo
      by_contra hkind
      have hsame := (isKindOf_ofPos_iff i j).mp (by simpa using hkind)
      have heq := hshare k List.mem_cons_self k' (List.mem_cons_of_mem _ hk') (by rw [hi, hj, hsame])
      exact hnot (heq ▸ hk')
    have hstep := ih (base ||| CharInfo.ofPos i) hdef hnodup
      (fun k₁ h₁ k₂ h₂ => hshare k₁ (List.mem_cons_of_mem _ h₁) k₂ (List.mem_cons_of_mem _ h₂)) hrest
    rw [encodeLoop, hi]
    simp only [hsum]
    rw [hstep, isKindOf_or, Bool.or_eq_true, or_assoc]
    refine or_congr_right ?_
    simp only [List.mem_cons, exists_eq_or_imp, hi, Option.some.injEq, exists_eq_left']

theorem marks_iff_lists {range : CharRange} (h : Plain conf range) {k : List UInt8} (hk : k ∈ conf.carray) :
    Marks conf range k ↔ Lists conf range k := by
  obtain ⟨i, hi⟩ := exists_cmap hk
  rcases h with ⟨x, c, hc, hx⟩ | ⟨hdef, hnodup, hshare⟩
  · have hzero : encode conf range.c = 0 := by
      rw [encode, hc, encodeLoop, cmap_eq_none_iff.mpr hx]
    constructor
    · rintro ⟨info, -, hkind⟩
      rw [hzero, isKindOf_zero] at hkind
      cases hkind
    · rintro ⟨hdef, -⟩
      exact absurd (hdef x (hc ▸ List.mem_cons_self)) hx
  · have hencode := isKindOf_encodeLoop 0 (.ofPos i) hdef hnodup (fun x hx k hk => hshare x hx k (hdef k hk))
      fun _ _ _ _ => isKindOf_zero _
    have hmarks : Marks conf range k ↔ (encode conf range.c).isKindOf (.ofPos i) = true := by
      simp only [Marks, hi, Option.some.injEq, exists_eq_left']
    rw [hmarks, encode, hencode, isKindOf_zero]
    constructor
    · rintro (h | ⟨x, hx, info, hinfo, hkind⟩)
      · cases h
      · obtain ⟨j, hj⟩ := exists_cmap (hdef x hx)
        rw [hj] at hinfo
        cases hinfo
        have hsame := (isKindOf_ofPos_iff j i).mp hkind
        rw [hshare x hx k hk (by rw [hi, hj, hsame])]
        exact ⟨hdef, hx⟩
    · rintro ⟨-, hmem⟩
      exact Or.inr ⟨k, hmem, .ofPos i, hi, (isKindOf_ofPos_iff i i).mpr rfl⟩

theorem isKindOf_foldl_addRange (ranges : List CharRange) (table : Table) (c : UInt16) (x : CharInfo) :
    (ranges.foldl (addRange conf) table c).isKindOf x = true ↔
      (table c).isKindOf x = true ∨ ∃ range ∈ ranges, range.Contains c ∧ (encode conf range.c).isKindOf x = true := by
  induction ranges generalizing table with
  | nil => simp
  | cons range ranges ih =>
    rw [List.foldl_cons, ih, addRange]
    simp only [List.mem_cons, exists_eq_or_imp]
    split_ifs with hc
    · rw [isKindOf_or, Bool.or_eq_true, or_assoc]
      simp [hc]
    · simp [hc]

/-- A range at the code point marks the category. -/
def MarkedAt (conf : Conf) (c : UInt16) (k : List UInt8) : Prop := ∃ range ∈ conf.ranges, range.Contains c ∧ Marks conf range k

/-- A range at the code point lists the category, and only defined ones. -/
def ListedAt (conf : Conf) (c : UInt16) (k : List UInt8) : Prop := ∃ range ∈ conf.ranges, range.Contains c ∧ Lists conf range k

theorem isKindOf_ucs2Table {c : UInt16} {k : List UInt8} {info : CharInfo} (hinfo : conf.cmap k = some info) :
    (ucs2Table conf c).isKindOf info = true ↔ MarkedAt conf c k := by
  rw [ucs2Table, isKindOf_foldl_addRange, isKindOf_zero]
  simp only [Bool.false_eq_true, false_or, MarkedAt, Marks, hinfo, Option.some.injEq, exists_eq_left']

/-- The file of a configuration is opened, it has the categories that are defined, in order, and a code point is of the
kind of a category exactly if the configuration says so. -/
def MeansConfiguration (out : Compiled) (behind : List UInt8) : Prop :=
  ∃ p, openFile out.file behind = some p ∧ p.categories.map p.name = out.conf.carray ∧
    ∀ c : UInt16, c < 0xffff → ∀ k ∈ out.conf.carray,
      ∃ info, p.getCharInfo c = some info ∧ (info.isKindOf (p.getKeyInfo k) = true ↔ ListedAt out.conf c k)

/-- The names can be written, and there is room for their number. -/
def Writable (conf : Conf) : Prop := (∀ k ∈ conf.carray, 0 ∉ k) ∧ conf.carray.length < 2 ^ 27

theorem map_cString_eq_self_iff {names : List (List UInt8)} : names.map cString = names ↔ ∀ k ∈ names, 0 ∉ k := by
  induction names with
  | nil => simp
  | cons k names ih => rw [List.map_cons, List.cons.injEq, cString_eq_self_iff, ih, List.forall_mem_cons]

theorem meansConfiguration_iff_marked (conf : Conf) (behind : List UInt8) :
    MeansConfiguration ⟨conf, ucs2Table conf⟩ behind ↔ Writable conf ∧
      ∀ c : UInt16, c < 0xffff → ∀ k ∈ conf.carray, (MarkedAt conf c k ↔ ListedAt conf c k) := by
  have hkind : Writable conf → ∀ c : UInt16, c < 0xffff → ∀ k ∈ conf.carray,
      ((ucs2Table conf c).isKindOf ((opened ⟨conf, ucs2Table conf⟩).getKeyInfo k) = true ↔ MarkedAt conf c k) := by
    rintro ⟨hnul, hcount⟩ c _ k hk
    have hkey : some ((opened ⟨conf, ucs2Table conf⟩).getKeyInfo k) = conf.cmap k := getKeyInfo_opened hcount hnul hk
    exact isKindOf_ucs2Table hkey.symm
  constructor
  · rintro ⟨p, hopen, hnames, hmeans⟩
    have hcount : conf.carray.length < 2 ^ 27 := by
      by_contra hle
      rw [openFile_file_eq_none (Nat.le_of_not_lt hle)] at hopen
      cases hopen
    rw [openFile_file hcount] at hopen
    cases hopen
    rw [names_opened hcount] at hnames
    have hwritable : Writable conf := ⟨map_cString_eq_self_iff.mp hnames, hcount⟩
    refine ⟨hwritable, fun c hc k hk => ?_⟩
    obtain ⟨info, hinfo, hiff⟩ := hmeans c hc k hk
    rw [getCharInfo_opened hcount hc] at hinfo
    cases hinfo
    exact (hkind hwritable c hc k hk).symm.trans hiff
  · rintro ⟨hwritable, hmarked⟩
    have hcount := hwritable.2
    refine ⟨opened ⟨conf, ucs2Table conf⟩, openFile_file hcount, ?_, fun c hc k hk => ?_⟩
    · rw [names_opened hcount]
      exact map_cString_eq_self_iff.mpr hwritable.1
    · exact ⟨ucs2Table conf c, getCharInfo_opened hcount hc, (hkind hwritable c hc k hk).trans (hmarked c hc k hk)⟩

/-- A range that is not plain does no harm at its code points: what it marks is listed there, and what it lists
is marked there, by this range or by others. -/
def Covered (conf : Conf) (range : CharRange) : Prop :=
  ∀ c : UInt16, c < 0xffff → range.Contains c → ∀ k ∈ conf.carray,
    (Marks conf range k → ListedAt conf c k) ∧ (Lists conf range k → MarkedAt conf c k)

end Raster.CharProperty
