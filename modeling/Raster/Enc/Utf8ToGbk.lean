import Raster.Enc.UnicodeToGbk

/-!
# From UTF-8 to GBK

`utf8_to_gbk` of `raster/enc/uconv.cpp`. The header of a word says how many bytes it has; the value is kept in 16 bits,
and the bytes behind the header are masked without a check. So words of several bytes can have the value of an ASCII
character, and code points above `U+FFFF` that of another one. Each byte of the output is recorded with the place of the
word that it was made from.
-/

namespace Raster.Uconv

/-- `BytesFromHeader`. -/
def bytesFromHeader (c : UInt8) : Nat :=
  if c < 0x80 then 1
  else if c < 0xc0 then 0
  else if c < 0xe0 then 2
  else if c < 0xf0 then 3
  else if c < 0xf8 then 4
  else if c < 0xfc then 5
  else if c < 0xfe then 6
  else 0

/-- `UTF8_HEADER`. -/
def utf8Header : Nat → UInt8
  | 2 => 0xc0
  | 3 => 0xe0
  | 4 => 0xf0
  | 5 => 0xf8
  | 6 => 0xfc
  | _ => 0

/-- A byte of the output, with the place and the length of the word that it was made from. -/
structure OutByte where
  byte : UInt8
  place : Nat
  len : Nat
  deriving DecidableEq

/-- The bytes that are made from a word. -/
def madeFrom (place len : Nat) (bytes : List UInt8) : List OutByte := bytes.map fun b => ⟨b, place, len⟩

/-- The end of a call: `-1`, a read behind the end of the source, or a length and the bytes written. -/
inductive Outcome where
  | failed
  | outside
  | done (dl : UInt32) (out : List OutByte)

/-- A byte behind the header adds its six bits. -/
def shiftIn (tmp : UInt16) (cur : UInt8) : UInt16 := (tmp <<< 6) ||| (cur &&& 0x3f).toUInt16

/-- The loop over the bytes behind a header, `none` behind the end of the source. -/
def readWord : Nat → UInt16 → List UInt8 → Option (UInt16 × List UInt8)
  | 0, tmp, src => some (tmp, src)
  | _ + 1, _, [] => none
  | k + 1, tmp, cur :: src => readWord k (shiftIn tmp cur) src

/-- The loop of `utf8_to_gbk`, at most `n` turns of it. -/
def utf8ToGbkLoop (table : UnicodeTable) (srcLen dstSize : UInt32) (flags : Flags) (rpChar : UInt8) :
    Nat → List UInt8 → UInt32 → UInt32 → List OutByte → Outcome
  | 0, _, _, dl, out => .done dl out
  | _ + 1, [], _, dl, out => .done dl out
  | n + 1, cur :: src, i, dl, out =>
    if dl < dstSize - 1 then
      let len := bytesFromHeader cur
      let made := madeFrom i.toNat len
      if len = 0 then utf8ToGbkLoop table srcLen dstSize flags rpChar n src (i + 1) dl out
      else if srcLen < i + 1 + UInt32.ofNat len - 1 then .done dl out
      else
        match readWord (len - 1) (cur &&& ~~~ utf8Header len).toUInt16 src with
        | none => .outside
        | some (tmp, src) =>
          let i := i + UInt32.ofNat len
          if isAsciiUnit tmp then
            utf8ToGbkLoop table srcLen dstSize flags rpChar n src i (dl + 1) (out ++ made [tmp.toUInt8])
          else if dstSize ≤ dl + 2 then .done dl out
          else if table tmp ≠ 0 then
            utf8ToGbkLoop table srcLen dstSize flags rpChar n src i (dl + 2) (out ++ made (codeBytes (table tmp)))
          else if tmp = ucs2Euro then
            utf8ToGbkLoop table srcLen dstSize flags rpChar n src i (dl + 1) (out ++ made [gbkEuro])
          else if flags.has .entites then
            if dstSize ≤ dl + 8 then .done dl out
            else utf8ToGbkLoop table srcLen dstSize flags rpChar n src i (dl + 8) (out ++ made (entity tmp))
          else if flags.has .error then .failed
          else utf8ToGbkLoop table srcLen dstSize flags rpChar n src i (dl + 1) (out ++ made [rpChar])
    else .done dl out

def utf8ToGbk (table : UnicodeTable) (src : List UInt8) (dstSize : UInt32) (flags : Flags) (rpChar : UInt8) : Outcome :=
  let srcLen := UInt32.ofNat src.length
  if dstSize = 0 then .done 0 []
  else if dstSize < srcLen then .failed
  else
    match utf8ToGbkLoop table srcLen dstSize flags rpChar src.length src 0 0 [] with
    | .done dl out => .done (if dstSize ≤ dl then dstSize - 1 else dl) out
    | r => r

/-! ### The words of a text -/

/-- A word of the source: a header with the bytes that it announces, or a byte that is no header. -/
structure Word where
  place : Nat
  bytes : List UInt8

/-- The first word of a text and the rest, if there is a whole word. -/
def nextWord : List UInt8 → Option (List UInt8 × List UInt8)
  | [] => none
  | a :: src =>
    if bytesFromHeader a = 0 then some ([a], src)
    else if src.length < bytesFromHeader a - 1 then none
    else some (a :: src.take (bytesFromHeader a - 1), src.drop (bytesFromHeader a - 1))

/-- The words of a text from a place on, at most `n` of them. -/
def wordsFrom : Nat → Nat → List UInt8 → List Word
  | 0, _, _ => []
  | n + 1, place, src =>
    match nextWord src with
    | none => []
    | some (w, rest) => ⟨place, w⟩ :: wordsFrom n (place + w.length) rest

/-- What is left behind the last whole word. -/
def lastPart : Nat → List UInt8 → List UInt8
  | 0, src => src
  | n + 1, src =>
    match nextWord src with
    | none => src
    | some (_, rest) => lastPart n rest

def wordsOf (src : List UInt8) : List Word := wordsFrom src.length 0 src

/-- The value of a word in 16 bits. -/
def unitOf : List UInt8 → UInt16
  | [] => 0
  | a :: conts => conts.foldl shiftIn (a &&& ~~~ utf8Header (bytesFromHeader a)).toUInt16

/-- The code point of a word. -/
def codePoint : List UInt8 → Nat
  | [] => 0
  | a :: conts => conts.foldl (fun v cur => v * 64 + cur.toNat % 64) (a &&& ~~~ utf8Header (bytesFromHeader a)).toNat

/-- What becomes of a word. -/
inductive WordKind where
  | skipped
  | ascii (c : UInt8)
  | forged (c : UInt8)
  | code (a b : UInt8)
  | euro
  | replaced
  deriving DecidableEq

namespace WordKind

/-- The bytes that are written for a word. -/
def bytes (rpChar : UInt8) : WordKind → List UInt8
  | skipped => []
  | ascii c => [c]
  | forged c => [c]
  | code a b => [a, b]
  | euro => [gbkEuro]
  | replaced => [rpChar]

/-- There is room for a word behind `d` bytes: one byte more than it needs, and two for anything but ASCII. -/
def hasRoom (size d : Nat) : WordKind → Bool
  | skipped => d + 1 < size
  | ascii _ => d + 1 < size
  | forged _ => d + 1 < size
  | _ => d + 2 < size

end WordKind

def kindOf (table : UnicodeTable) : List UInt8 → WordKind
  | [] => .skipped
  | a :: conts =>
    if bytesFromHeader a = 0 then .skipped
    else if isAsciiUnit (unitOf (a :: conts)) then
      if conts = [] then .ascii (unitOf (a :: conts)).toUInt8 else .forged (unitOf (a :: conts)).toUInt8
    else if table (unitOf (a :: conts)) ≠ 0 then
      .code (table (unitOf (a :: conts)) >>> 8).toUInt8 (table (unitOf (a :: conts)) &&& 0xff).toUInt8
    else if unitOf (a :: conts) = ucs2Euro then .euro
    else .replaced

/-- The bytes of a word in the output. -/
def Word.made (table : UnicodeTable) (rpChar : UInt8) (w : Word) : List OutByte :=
  madeFrom w.place w.bytes.length ((kindOf table w.bytes).bytes rpChar)

/-! ### The loop, one word after the other -/

/-- The sum of the check at a header near the end of the longest sources wraps, and the word is read beyond the end. -/
def overreads (srcLen : Nat) : List UInt8 → Bool
  | [] => false
  | a :: rest => 2 ^ 32 ≤ srcLen - (rest.length + 1) + bytesFromHeader a

/-- The loop on words. -/
def convert (table : UnicodeTable) (size : Nat) (flags : Flags) (rpChar : UInt8) (past : Bool) :
    List Word → UInt32 → List OutByte → Outcome
  | [], dl, out => if dl.toNat + 1 < size ∧ past then .outside else .done dl out
  | w :: ws, dl, out =>
    if (kindOf table w.bytes).hasRoom size dl.toNat then
      if kindOf table w.bytes = .replaced ∧ flags.has .error then .failed
      else
        convert table size flags rpChar past ws (dl + UInt32.ofNat ((kindOf table w.bytes).bytes rpChar).length)
          (out ++ w.made table rpChar)
    else .done dl out

variable {table : UnicodeTable} {flags : Flags} {rpChar : UInt8}

theorem readWord_eq (k : Nat) (tmp : UInt16) (src : List UInt8) :
    readWord k tmp src =
      if k ≤ src.length then some ((src.take k).foldl shiftIn tmp, src.drop k) else none := by
  induction k generalizing tmp src with
  | zero => simp [readWord]
  | succ k ih =>
    cases src with
    | nil => simp [readWord]
    | cons cur src => simp [readWord, ih]

theorem bytesFromHeader_le (c : UInt8) : bytesFromHeader c ≤ 6 := by
  unfold bytesFromHeader
  split_ifs <;> decide

theorem hasRoom_false {size d : Nat} (h : ¬ d + 1 < size) (k : WordKind) : k.hasRoom size d = false := by
  cases k <;> simp only [WordKind.hasRoom, decide_eq_false_iff_not] <;> omega

theorem length_bytes_lt {size d : Nat} {k : WordKind} (h : k.hasRoom size d = true) : d + (k.bytes rpChar).length < size := by
  cases k <;> simp only [WordKind.hasRoom, WordKind.bytes, decide_eq_true_eq, List.length_cons, List.length_nil] at h ⊢ <;> omega

theorem toNat_add_bytes {size : Nat} {dl : UInt32} {k : WordKind} (hsize : size ≤ 2 ^ 32) (h : k.hasRoom size dl.toNat = true) :
    (dl + UInt32.ofNat (k.bytes rpChar).length).toNat = dl.toNat + (k.bytes rpChar).length := by
  have hlen := @length_bytes_lt rpChar _ _ _ h
  rw [UInt32.toNat_add, UInt32.toNat_ofNat', Nat.mod_eq_of_lt (show _ < 2 ^ 32 by omega), Nat.mod_eq_of_lt (by omega)]

theorem convert_nil {size : Nat} (dl : UInt32) (out : List OutByte) :
    convert table size flags rpChar false [] dl out = .done dl out := if_neg fun h => Bool.false_ne_true h.2

theorem convert_full {size : Nat} {past : Bool} {dl : UInt32} (h : ¬ dl.toNat + 1 < size) (ws : List Word) (out : List OutByte) :
    convert table size flags rpChar past ws dl out = .done dl out := by
  cases ws with
  | nil => exact if_neg fun hover => h hover.1
  | cons w ws => rw [convert, hasRoom_false h, if_neg (by decide)]

theorem check_iff {srcLen i : UInt32} {len rest : Nat} (hlen : i.toNat + (rest + 1) = srcLen.toNat) (hpos : 0 < len)
    (hle : len ≤ 6) :
    srcLen < i + 1 + UInt32.ofNat len - 1 ↔ rest < len - 1 ∧ i.toNat + len < 2 ^ 32 := by
  have hsrc := srcLen.toNat_lt
  have hsum : i + 1 + UInt32.ofNat len - 1 = i + UInt32.ofNat len := by grind
  rw [hsum, UInt32.lt_iff_toNat_lt, UInt32.toNat_add, UInt32.toNat_ofNat', Nat.mod_eq_of_lt (show len < 2 ^ 32 by omega)]
  rcases Nat.lt_or_ge (i.toNat + len) (2 ^ 32) with hlt | hge
  · rw [Nat.mod_eq_of_lt hlt]
    omega
  · have hmod : (i.toNat + len) % 2 ^ 32 = i.toNat + len - 2 ^ 32 := by
      rw [Nat.mod_eq_sub_mod hge, Nat.mod_eq_of_lt (by omega)]
    rw [hmod]
    omega

theorem kindOf_cons {a : UInt8} {conts : List UInt8} (ha : bytesFromHeader a ≠ 0) :
    kindOf table (a :: conts) =
      if isAsciiUnit (unitOf (a :: conts)) then
        if conts = [] then .ascii (unitOf (a :: conts)).toUInt8 else .forged (unitOf (a :: conts)).toUInt8
      else if table (unitOf (a :: conts)) ≠ 0 then
        .code (table (unitOf (a :: conts)) >>> 8).toUInt8 (table (unitOf (a :: conts)) &&& 0xff).toUInt8
      else if unitOf (a :: conts) = ucs2Euro then .euro
      else .replaced := if_neg ha

theorem branches_eq {dstSize dl : UInt32} {a : UInt8} {conts : List UInt8} (next : UInt32 → List OutByte → Outcome)
    (hflags : flags.has .entites = false) (hroom : dl.toNat + 1 < dstSize.toNat) (ha : bytesFromHeader a ≠ 0)
    (hlen : (a :: conts).length = bytesFromHeader a) (place : Nat) (out : List OutByte) (ends : Outcome) :
    (if isAsciiUnit (unitOf (a :: conts)) then
        next (dl + 1) (out ++ madeFrom place (bytesFromHeader a) [(unitOf (a :: conts)).toUInt8])
      else if dstSize ≤ dl + 2 then .done dl out
      else if table (unitOf (a :: conts)) ≠ 0 then
        next (dl + 2) (out ++ madeFrom place (bytesFromHeader a) (codeBytes (table (unitOf (a :: conts)))))
      else if unitOf (a :: conts) = ucs2Euro then next (dl + 1) (out ++ madeFrom place (bytesFromHeader a) [gbkEuro])
      else if flags.has .entites then ends
      else if flags.has .error then .failed
      else next (dl + 1) (out ++ madeFrom place (bytesFromHeader a) [rpChar])) =
      if (kindOf table (a :: conts)).hasRoom dstSize.toNat dl.toNat then
        if kindOf table (a :: conts) = .replaced ∧ flags.has .error then .failed
        else
          next (dl + UInt32.ofNat ((kindOf table (a :: conts)).bytes rpChar).length)
            (out ++ Word.made table rpChar ⟨place, a :: conts⟩)
      else .done dl out := by
  have hsize := dstSize.toNat_lt
  have htwo : dstSize ≤ dl + 2 ↔ dstSize.toNat ≤ dl.toNat + 2 :=
    @le_add_iff dl dstSize 2 (show dl.toNat + 2 < 2 ^ 32 by omega)
  have hkind := @kindOf_cons table a conts ha
  rw [Word.made, hlen, hflags, if_neg Bool.false_ne_true]
  simp only [htwo]
  by_cases hascii : isAsciiUnit (unitOf (a :: conts)) = true
  · rw [if_pos hascii] at hkind ⊢
    have hhas : (kindOf table (a :: conts)).hasRoom dstSize.toNat dl.toNat = true := by
      rw [hkind]
      split_ifs <;> exact decide_eq_true hroom
    rw [if_pos hhas]
    split_ifs at hkind with hnil
    · rw [hkind, if_neg fun h => WordKind.noConfusion h.1]
      rfl
    · rw [hkind, if_neg fun h => WordKind.noConfusion h.1]
      rfl
  rw [if_neg hascii] at hkind ⊢
  have hhas : (kindOf table (a :: conts)).hasRoom dstSize.toNat dl.toNat = decide (dl.toNat + 2 < dstSize.toNat) := by
    rw [hkind]
    split_ifs <;> rfl
  simp only [hhas, decide_eq_true_eq]
  by_cases hfull : dstSize.toNat ≤ dl.toNat + 2
  · rw [if_pos hfull, if_neg (Nat.not_lt.mpr hfull)]
  have htwice : dl.toNat + 2 < dstSize.toNat := Nat.lt_of_not_le hfull
  rw [if_neg hfull, if_pos htwice]
  by_cases hcode : table (unitOf (a :: conts)) ≠ 0
  · rw [if_pos hcode] at hkind ⊢
    rw [hkind, if_neg fun h => WordKind.noConfusion h.1]
    rfl
  rw [if_neg hcode] at hkind ⊢
  by_cases heuro : unitOf (a :: conts) = ucs2Euro
  · rw [if_pos heuro] at hkind ⊢
    rw [hkind, if_neg fun h => WordKind.noConfusion h.1]
    rfl
  rw [if_neg heuro] at hkind ⊢
  rw [hkind]
  by_cases herror : flags.has .error = true
  · rw [if_pos herror, if_pos ⟨rfl, herror⟩]
  · rw [if_neg herror, if_neg fun h => herror h.2]
    rfl

theorem utf8ToGbkLoop_eq {srcLen dstSize : UInt32} (hflags : flags.has .entites = false) (n : Nat) (src : List UInt8)
    (i dl : UInt32) (out : List OutByte) (hn : src.length ≤ n) (hlen : i.toNat + src.length = srcLen.toNat)
    (hdl : dl.toNat < dstSize.toNat) :
    utf8ToGbkLoop table srcLen dstSize flags rpChar n src i dl out =
      convert table dstSize.toNat flags rpChar (overreads srcLen.toNat (lastPart n src)) (wordsFrom n i.toNat src) dl out := by
  have hsrc := srcLen.toNat_lt
  have hsize := dstSize.toNat_lt
  induction n generalizing src i dl out with
  | zero =>
    rw [List.length_eq_zero_iff.mp (Nat.le_zero.mp hn)]
    exact (convert_nil dl out).symm
  | succ n ih =>
    cases src with
    | nil => exact (convert_nil dl out).symm
    | cons cur src =>
      rw [utf8ToGbkLoop]
      simp only [lt_pred_iff hdl]
      rw [List.length_cons] at hn hlen
      by_cases hroom : dl.toNat + 1 < dstSize.toNat
      swap
      · rw [if_neg hroom, convert_full hroom]
      rw [if_pos hroom]
      by_cases hzero : bytesFromHeader cur = 0
      · -- a byte that is no header
        have hnext : nextWord (cur :: src) = some ([cur], src) := if_pos hzero
        have hi : (i + 1).toNat = i.toNat + 1 := toNat_add_small (show i.toNat + 1 < 2 ^ 32 by omega)
        have hkind : kindOf table [cur] = .skipped := if_pos hzero
        rw [if_pos hzero, ih src (i + 1) dl out (by omega) (by omega) hdl, wordsFrom, lastPart, hnext]
        simp only [convert, hkind, WordKind.hasRoom, hroom, hi]
        simp [Word.made, hkind, WordKind.bytes, madeFrom]
      rw [if_neg hzero]
      have hpos : 0 < bytesFromHeader cur := Nat.pos_of_ne_zero hzero
      have hle := bytesFromHeader_le cur
      by_cases hshort : src.length < bytesFromHeader cur - 1
      · -- the last part of the source
        have hnext : nextWord (cur :: src) = none := by
          rw [nextWord, if_neg hzero, if_pos hshort]
        have hover : overreads srcLen.toNat (cur :: src) = decide (2 ^ 32 ≤ i.toNat + bytesFromHeader cur) := by
          rw [overreads, show srcLen.toNat - (src.length + 1) = i.toNat by omega]
        rw [wordsFrom, lastPart, hnext]
        simp only [check_iff hlen hpos hle, convert, hover]
        by_cases hwrap : i.toNat + bytesFromHeader cur < 2 ^ 32
        · rw [if_pos ⟨hshort, hwrap⟩, if_neg]
          rintro ⟨-, h⟩
          rw [decide_eq_true_eq] at h
          omega
        · rw [if_neg fun h => hwrap h.2, if_pos ⟨hroom, by simpa using hwrap⟩, readWord_eq, if_neg (by omega)]
      -- a whole word
      generalize hconts : src.take (bytesFromHeader cur - 1) = conts
      generalize hrest : src.drop (bytesFromHeader cur - 1) = rest
      have hnext : nextWord (cur :: src) = some (cur :: conts, rest) := by
        rw [nextWord, if_neg hzero, if_neg hshort, hconts, hrest]
      have hread : readWord (bytesFromHeader cur - 1) (cur &&& ~~~ utf8Header (bytesFromHeader cur)).toUInt16 src =
          some (unitOf (cur :: conts), rest) := by
        rw [readWord_eq, if_pos (by omega), hconts, hrest]
        rfl
      have hwlen : (cur :: conts).length = bytesFromHeader cur := by
        rw [← hconts, List.length_cons, List.length_take]
        omega
      have hrlen : rest.length = src.length - (bytesFromHeader cur - 1) := by
        rw [← hrest, List.length_drop]
      have hi : (i + UInt32.ofNat (bytesFromHeader cur)).toNat = i.toNat + bytesFromHeader cur := by
        rw [UInt32.toNat_add, UInt32.toNat_ofNat', Nat.mod_eq_of_lt (show bytesFromHeader cur < 2 ^ 32 by omega),
          Nat.mod_eq_of_lt (by omega)]
      rw [if_neg fun h => hshort ((check_iff hlen hpos hle).mp h).1, hread, wordsFrom, lastPart, hnext]
      dsimp only
      rw [branches_eq (utf8ToGbkLoop table srcLen dstSize flags rpChar n rest (i + UInt32.ofNat (bytesFromHeader cur)))
        hflags hroom hzero hwlen, convert]
      refine ite_congr rfl (fun hhas => ite_congr rfl (fun _ => rfl) fun _ => ?_) fun _ => rfl
      have hfits := @length_bytes_lt rpChar _ _ _ hhas
      have hdl' := @toNat_add_bytes rpChar _ _ _ (Nat.le_of_lt hsize) hhas
      rw [ih rest _ _ _ (by omega) (by omega) (by rwa [hdl']), hi, hwlen]

/-! ### What is written -/

/-- The words that are written behind `d` bytes: those before the first one without room. -/
def reached (table : UnicodeTable) (rpChar : UInt8) (size : Nat) : List Word → Nat → List Word
  | [], _ => []
  | w :: ws, d =>
    if (kindOf table w.bytes).hasRoom size d then
      w :: reached table rpChar size ws (d + ((kindOf table w.bytes).bytes rpChar).length)
    else []

/-- There is room for all the words behind `d` bytes, and for one byte more. -/
def arrives (table : UnicodeTable) (rpChar : UInt8) (size : Nat) : List Word → Nat → Bool
  | [], d => d + 1 < size
  | w :: ws, d =>
    (kindOf table w.bytes).hasRoom size d &&
      arrives table rpChar size ws (d + ((kindOf table w.bytes).bytes rpChar).length)

/-- Words for which the call returns `-1`. -/
def fails (table : UnicodeTable) (flags : Flags) (ws : List Word) : Bool :=
  flags.has .error && ws.any fun w => kindOf table w.bytes = .replaced

/-- The bytes of words in the output. -/
def written (table : UnicodeTable) (rpChar : UInt8) (ws : List Word) : List OutByte := ws.flatMap (Word.made table rpChar)

theorem length_made (w : Word) : (w.made table rpChar).length = ((kindOf table w.bytes).bytes rpChar).length :=
  List.length_map _

theorem written_cons (w : Word) (ws : List Word) :
    written table rpChar (w :: ws) = w.made table rpChar ++ written table rpChar ws := List.flatMap_cons

theorem length_written_reached {size : Nat} (ws : List Word) {d : Nat} (hd : d < size) :
    d + (written table rpChar (reached table rpChar size ws d)).length < size := by
  induction ws generalizing d with
  | nil => exact hd
  | cons w ws ih =>
    rw [reached]
    split_ifs with hroom
    · rw [written_cons, List.length_append, length_made, ← Nat.add_assoc]
      exact ih (length_bytes_lt hroom)
    · exact hd

theorem convert_eq {size : Nat} {past : Bool} (hsize : size ≤ 2 ^ 32) (ws : List Word) (dl : UInt32) (out : List OutByte)
    (hdl : dl.toNat < size) :
    convert table size flags rpChar past ws dl out =
      if fails table flags (reached table rpChar size ws dl.toNat) then .failed
      else if arrives table rpChar size ws dl.toNat && past then .outside
      else .done (UInt32.ofNat (dl.toNat + (written table rpChar (reached table rpChar size ws dl.toNat)).length))
        (out ++ written table rpChar (reached table rpChar size ws dl.toNat)) := by
  induction ws generalizing dl out with
  | nil => simp [convert, reached, fails, arrives, written]
  | cons w ws ih =>
    rw [convert, reached, arrives]
    by_cases hroom : (kindOf table w.bytes).hasRoom size dl.toNat = true
    swap
    · simp [hroom, fails, written]
    have hlen := @length_bytes_lt rpChar _ _ _ hroom
    have hnext := @toNat_add_bytes rpChar _ _ _ hsize hroom
    rw [if_pos hroom, if_pos hroom, hroom, Bool.true_and]
    by_cases hfails : kindOf table w.bytes = .replaced ∧ flags.has .error = true
    · rw [if_pos hfails, if_pos]
      simp [fails, hfails]
    · have hrest : fails table flags (w :: reached table rpChar size ws (dl.toNat + ((kindOf table w.bytes).bytes rpChar).length)) =
          fails table flags (reached table rpChar size ws (dl.toNat + ((kindOf table w.bytes).bytes rpChar).length)) := by
        rw [fails, List.any_cons, fails]
        by_cases herror : flags.has .error = true
        · have hne : kindOf table w.bytes ≠ .replaced := fun hk => hfails ⟨hk, herror⟩
          simp [hne]
        · simp [herror]
      rw [if_neg hfails, ih _ _ (by omega), hnext, hrest, written_cons, List.length_append, length_made,
        ← Nat.add_assoc, List.append_assoc]

theorem utf8ToGbk_eq {src : List UInt8} {dstSize : UInt32} (hflags : flags.has .entites = false)
    (hsize : src.length ≤ dstSize.toNat) (hne : dstSize ≠ 0) :
    utf8ToGbk table src dstSize flags rpChar =
      let ws := reached table rpChar dstSize.toNat (wordsOf src) 0
      if fails table flags ws then .failed
      else if arrives table rpChar dstSize.toNat (wordsOf src) 0 && overreads src.length (lastPart src.length src) then .outside
      else .done (UInt32.ofNat (written table rpChar ws).length) (written table rpChar ws) := by
  have hlt := dstSize.toNat_lt
  have hpos : 0 < dstSize.toNat := Nat.pos_of_ne_zero fun h => hne (UInt32.toNat_inj.mp h)
  have hlen : (UInt32.ofNat src.length).toNat = src.length := by
    rw [UInt32.toNat_ofNat', Nat.mod_eq_of_lt (by omega)]
  have hcheck : ¬ dstSize < UInt32.ofNat src.length := by
    rw [UInt32.lt_iff_toNat_lt, hlen]
    omega
  have hwritten := @length_written_reached table rpChar _ (wordsOf src) _ hpos
  have hloop := (@utf8ToGbkLoop_eq table flags rpChar _ _ hflags src.length src 0 0 [] (Nat.le_refl _)
    (by rw [hlen]; exact Nat.zero_add _) hpos).trans (convert_eq (Nat.le_of_lt hlt) _ _ _ hpos)
  have hwords : wordsFrom src.length 0 src = wordsOf src := rfl
  rw [hlen, UInt32.toNat_zero, Nat.zero_add, List.nil_append, hwords] at hloop
  rw [utf8ToGbk, if_neg hne, if_neg hcheck, hloop]
  dsimp only
  rw [Nat.zero_add] at hwritten
  have hdl : ¬ dstSize ≤ UInt32.ofNat (written table rpChar (reached table rpChar dstSize.toNat (wordsOf src) 0)).length := by
    rw [UInt32.le_iff_toNat_le, UInt32.toNat_ofNat', Nat.mod_eq_of_lt (by omega)]
    omega
  split_ifs with hfails houtside
  · rfl
  · rfl
  · exact congrArg (Outcome.done · _) (if_neg hdl)

end Raster.Uconv
