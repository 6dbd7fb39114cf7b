import Raster.Enc.Gbk

/-!
# From code units to GBK

`unicode_to_gbk` of `raster/enc/uconv.cpp`. Each code unit becomes a piece of one, two or eight bytes, and a piece for
which there is no room ends the loop. The `break` of the entity is inside of the `switch`, so an entity for which there
is no room is left out and the loop goes on behind it: with less room the output is another one, not a shorter one.
-/

namespace Raster.Uconv

/-- The memory behind a destination of bytes. -/
abbrev Bytes := Nat → UInt8

/-- Bytes are stored one after the other. -/
def store (dest : Bytes) (pos : Nat) : List UInt8 → Bytes
  | [] => dest
  | b :: bytes => store (Function.update dest pos b) (pos + 1) bytes

/-- `gHexArray`, which holds `0` to `9` and `A` to `F`. -/
def gHexArray : List UInt8 :=
  [0x30, 0x31, 0x32, 0x33, 0x34, 0x35, 0x36, 0x37, 0x38, 0x39, 0x41, 0x42, 0x43, 0x44, 0x45, 0x46]

def hexDigit (n : UInt16) : UInt8 := gHexArray.getD (0x0f &&& n).toNat 0

/-- The entity `&#xXXXX;`. -/
def entity (u : UInt16) : List UInt8 :=
  [0x26, 0x23, 0x78, hexDigit (u >>> 8 >>> 4), hexDigit (u >>> 8), hexDigit ((u &&& 0xff) >>> 4), hexDigit (u &&& 0xff), 0x3b]

/-- The two bytes of a code. -/
def codeBytes (code : UInt16) : List UInt8 := [(code >>> 8).toUInt8, (code &&& 0xff).toUInt8]

/-- The loop of `unicode_to_gbk`, with `none` for the return of `-1`. The pointer `dest_next` is at `pos`; the bytes
that `unicode_char_to_gbk` stores are stored also where there is no code. -/
def unicodeToGbkLoop (table : UnicodeTable) (dstSize : UInt32) (flags : Flags) (replaceChar : UInt16) :
    List UInt16 → UInt32 → Nat → Bytes → Option UInt32 × Bytes
  | [], di, _, dest => (some di, dest)
  | u :: src, di, pos, dest =>
    if di < dstSize - 1 then
      if isAsciiUnit u then
        unicodeToGbkLoop table dstSize flags replaceChar src (di + 1) (pos + 1) (store dest pos [u.toUInt8])
      else if dstSize ≤ di + 2 then (some di, dest)
      else
        let dest := store dest pos (codeBytes (table u))
        if table u ≠ 0 then unicodeToGbkLoop table dstSize flags replaceChar src (di + 2) (pos + 2) dest
        else if u = ucs2Euro then
          unicodeToGbkLoop table dstSize flags replaceChar src (di + 1) (pos + 1) (store dest pos [gbkEuro])
        else if flags = .replace then
          if replaceChar < 256 then
            unicodeToGbkLoop table dstSize flags replaceChar src (di + 1) (pos + 1) (store dest pos [replaceChar.toUInt8])
          else
            unicodeToGbkLoop table dstSize flags replaceChar src (di + 2) (pos + 2) (store dest pos (codeBytes replaceChar))
        else if flags = .error then (none, dest)
        else if flags = .entites then
          if dstSize ≤ di + 8 then unicodeToGbkLoop table dstSize flags replaceChar src di pos dest
          else unicodeToGbkLoop table dstSize flags replaceChar src (di + 8) (pos + 8) (store dest pos (entity u))
        else unicodeToGbkLoop table dstSize flags replaceChar src di pos dest
    else (some di, dest)

def unicodeToGbk (table : UnicodeTable) (src : List UInt16) (dest : Bytes) (dstSize : UInt32) (flags : Flags)
    (replaceChar : UInt16) : Int × Bytes :=
  if dstSize = 0 then (0, dest)
  else
    match unicodeToGbkLoop table dstSize flags replaceChar src 0 0 dest with
    | (none, dest) => (-1, dest)
    | (some di, dest) =>
      let di := if dstSize ≤ di then dstSize - 1 else di
      (toInt di.toNat, Function.update dest di.toNat 0)

/-! ### Pieces -/

/-- A code unit that is neither ASCII nor has a code, the euro sign apart. -/
def unmapped (table : UnicodeTable) (u : UInt16) : Bool := !isAsciiUnit u && table u == 0 && u != ucs2Euro

/-- What a code unit becomes where there is room. -/
def piece (table : UnicodeTable) (flags : Flags) (replaceChar u : UInt16) : List UInt8 :=
  if isAsciiUnit u then [u.toUInt8]
  else if table u ≠ 0 then codeBytes (table u)
  else if u = ucs2Euro then [gbkEuro]
  else if flags = .replace then if replaceChar < 256 then [replaceChar.toUInt8] else codeBytes replaceChar
  else if flags = .entites then entity u
  else []

/-- The code units that are written with `d` bytes before them, or `none` if the call fails. -/
def kept (table : UnicodeTable) (flags : Flags) (replaceChar : UInt16) (size : Nat) : List UInt16 → Nat → Option (List UInt16)
  | [], _ => some []
  | u :: us, d =>
    if d + 1 < size then
      if isAsciiUnit u then (kept table flags replaceChar size us (d + 1)).map (u :: ·)
      else if size ≤ d + 2 then some []
      else if unmapped table u ∧ flags = .error then none
      else if unmapped table u ∧ flags = .entites ∧ size ≤ d + 8 then kept table flags replaceChar size us d
      else (kept table flags replaceChar size us (d + (piece table flags replaceChar u).length)).map (u :: ·)
    else some []

variable {table : UnicodeTable} {flags : Flags} {replaceChar : UInt16}

theorem unmapped_iff {u : UInt16} : unmapped table u = true ↔ ¬ isAsciiUnit u = true ∧ table u = 0 ∧ u ≠ ucs2Euro := by
  simp [unmapped, and_assoc]

theorem piece_ascii {u : UInt16} (hascii : isAsciiUnit u = true) : piece table flags replaceChar u = [u.toUInt8] := if_pos hascii

theorem piece_code {u : UInt16} (hascii : ¬ isAsciiUnit u = true) (hcode : table u ≠ 0) :
    piece table flags replaceChar u = codeBytes (table u) := by
  rw [piece, if_neg hascii, if_pos hcode]

theorem piece_euro {u : UInt16} (hascii : ¬ isAsciiUnit u = true) (hcode : table u = 0) (heuro : u = ucs2Euro) :
    piece table flags replaceChar u = [gbkEuro] := by
  rw [piece, if_neg hascii, if_neg (not_not.mpr hcode), if_pos heuro]

theorem piece_unmapped {u : UInt16} (hu : unmapped table u = true) :
    piece table flags replaceChar u =
      if flags = .replace then if replaceChar < 256 then [replaceChar.toUInt8] else codeBytes replaceChar
      else if flags = .entites then entity u else [] := by
  obtain ⟨hascii, hcode, heuro⟩ := unmapped_iff.mp hu
  rw [piece, if_neg hascii, if_neg (not_not.mpr hcode), if_neg heuro]

theorem length_entity (u : UInt16) : (entity u).length = 8 := rfl

/-! ### What the loop stores -/

/-- The bytes are at `d`, and nothing below `d` or from `size` on has changed. -/
structure Stores (size d : Nat) (bytes : List UInt8) (dest dest' : Bytes) : Prop where
  below : ∀ j < d, dest' j = dest j
  stored : ∀ k (hk : k < bytes.length), dest' (d + k) = bytes[k]
  above : ∀ j, size ≤ j → dest' j = dest j

theorem store_of_lt {dest : Bytes} {pos j : Nat} (bytes : List UInt8) (hj : j < pos) : store dest pos bytes j = dest j := by
  induction bytes generalizing dest pos with
  | nil => rfl
  | cons b bytes ih => rw [store, ih (by omega), Function.update_of_ne (by omega)]

theorem store_of_ge {dest : Bytes} {pos j : Nat} (bytes : List UInt8) (hj : pos + bytes.length ≤ j) :
    store dest pos bytes j = dest j := by
  induction bytes generalizing dest pos with
  | nil => rfl
  | cons b bytes ih =>
    rw [List.length_cons] at hj
    rw [store, ih (by omega), Function.update_of_ne (by omega)]

theorem store_at {dest : Bytes} {pos k : Nat} {bytes : List UInt8} (hk : k < bytes.length) :
    store dest pos bytes (pos + k) = bytes[k] := by
  induction bytes generalizing dest pos k with
  | nil => cases hk
  | cons b bytes ih =>
    rw [store]
    cases k with
    | zero =>
      show store (Function.update dest pos b) (pos + 1) bytes pos = b
      rw [store_of_lt bytes (show pos < pos + 1 by omega), Function.update_self]
    | succ k =>
      have hk : k < bytes.length := Nat.lt_of_succ_lt_succ hk
      have hrest : store (Function.update dest pos b) (pos + 1) bytes (pos + 1 + k) = bytes[k] := ih hk
      rwa [show pos + 1 + k = pos + (k + 1) by omega] at hrest

theorem stores_store {size d : Nat} {bytes : List UInt8} (dest : Bytes) (h : d + bytes.length ≤ size) :
    Stores size d bytes dest (store dest d bytes) :=
  ⟨fun _ hj => store_of_lt bytes hj, fun _ hk => store_at hk, fun _ hj => store_of_ge bytes (Nat.le_trans h hj)⟩

theorem Stores.overwrite {size d : Nat} {bytes bytes' : List UInt8} {dest dest₁ dest₂ : Bytes}
    (h : Stores size d bytes dest dest₁) (h' : Stores size d bytes' dest₁ dest₂) : Stores size d bytes' dest dest₂ :=
  ⟨fun j hj => (h'.below j hj).trans (h.below j hj), h'.stored, fun j hj => (h'.above j hj).trans (h.above j hj)⟩

theorem Stores.nil {size d : Nat} {bytes : List UInt8} {dest dest' : Bytes} (h : Stores size d bytes dest dest') :
    Stores size d [] dest dest' := ⟨h.below, nofun, h.above⟩

theorem Stores.append {size d : Nat} {bytes bytes' : List UInt8} {dest dest₁ dest₂ : Bytes}
    (h : Stores size d bytes dest dest₁) (h' : Stores size (d + bytes.length) bytes' dest₁ dest₂) :
    Stores size d (bytes ++ bytes') dest dest₂ := by
  refine ⟨fun j hj => ?_, fun k hk => ?_, fun j hj => ?_⟩
  · rw [h'.below j (by omega), h.below j hj]
  · rw [List.length_append] at hk
    by_cases hlt : k < bytes.length
    · rw [h'.below _ (by omega), h.stored k hlt, List.getElem_append_left hlt]
    · have hrest := h'.stored (k - bytes.length) (by omega)
      rw [show d + bytes.length + (k - bytes.length) = d + k by omega] at hrest
      rw [hrest, List.getElem_append_right (Nat.le_of_not_lt hlt)]
  · rw [h'.above j hj, h.above j hj]

/-- The code units as bytes. -/
def pieces (table : UnicodeTable) (flags : Flags) (replaceChar : UInt16) (us : List UInt16) : List UInt8 :=
  us.flatMap (piece table flags replaceChar)

theorem pieces_cons (u : UInt16) (us : List UInt16) :
    pieces table flags replaceChar (u :: us) = piece table flags replaceChar u ++ pieces table flags replaceChar us :=
  List.flatMap_cons

/-- The end of the loop for what is kept: it stores the pieces, and there is still a byte left. -/
def Ends (table : UnicodeTable) (flags : Flags) (replaceChar : UInt16) (size d : Nat) (dest : Bytes)
    (ks : Option (List UInt16)) (r : Option UInt32 × Bytes) : Prop :=
  match ks with
  | none => r.1 = none
  | some ks => ∃ di, r.1 = some di ∧ di.toNat = d + (pieces table flags replaceChar ks).length ∧ di.toNat < size ∧
      Stores size d (pieces table flags replaceChar ks) dest r.2

theorem ends_nil {size d : Nat} {di : UInt32} {dest : Bytes} (hdi : di.toNat = d) (hd : d < size) :
    Ends table flags replaceChar size d dest (some []) (some di, dest) :=
  ⟨di, rfl, hdi, hdi ▸ hd, fun _ _ => rfl, nofun, fun _ _ => rfl⟩

theorem Ends.cons {size d d' : Nat} {u : UInt16} {dest dest₁ : Bytes} {ks : Option (List UInt16)} {r : Option UInt32 × Bytes}
    (hstores : Stores size d (piece table flags replaceChar u) dest dest₁)
    (hd' : d' = d + (piece table flags replaceChar u).length)
    (h : Ends table flags replaceChar size d' dest₁ ks r) :
    Ends table flags replaceChar size d dest (ks.map (u :: ·)) r := by
  subst hd'
  cases ks with
  | none => exact h
  | some ks =>
    obtain ⟨di, hr, hdi, hlt, hrest⟩ := h
    refine ⟨di, hr, ?_, hlt, ?_⟩
    · rw [hdi, pieces_cons, List.length_append, Nat.add_assoc]
    · rw [pieces_cons]
      exact hstores.append hrest

theorem Ends.skip {size d : Nat} {bytes : List UInt8} {dest dest₁ : Bytes} {ks : Option (List UInt16)} {r : Option UInt32 × Bytes}
    (hstores : Stores size d bytes dest dest₁) (h : Ends table flags replaceChar size d dest₁ ks r) :
    Ends table flags replaceChar size d dest ks r := by
  cases ks with
  | none => exact h
  | some ks =>
    obtain ⟨di, hr, hdi, hlt, hrest⟩ := h
    exact ⟨di, hr, hdi, hlt, hstores.overwrite hrest⟩

/-- The code units before one that makes the call fail. -/
def readable (table : UnicodeTable) (flags : Flags) (us : List UInt16) : List UInt16 :=
  if flags = .error then us.takeWhile fun u => !unmapped table u else us

theorem readable_cons {u : UInt16} (us : List UInt16) (hu : ¬ (unmapped table u = true ∧ flags = .error)) :
    readable table flags (u :: us) = u :: readable table flags us := by
  unfold readable
  split_ifs with herror
  · rw [List.takeWhile_cons_of_pos]
    simpa [herror] using hu
  · rfl

theorem readable_fail {u : UInt16} (us : List UInt16) (hu : unmapped table u = true ∧ flags = .error) :
    readable table flags (u :: us) = [] := by
  rw [readable, if_pos hu.2, List.takeWhile_cons_of_neg]
  simp [hu.1]

theorem toNat_add_small {di k : UInt32} (h : di.toNat + k.toNat < 2 ^ 32) : (di + k).toNat = di.toNat + k.toNat := by
  rw [UInt32.toNat_add, Nat.mod_eq_of_lt h]

theorem lt_pred_iff {di dstSize : UInt32} (hd : di.toNat < dstSize.toNat) : di < dstSize - 1 ↔ di.toNat + 1 < dstSize.toNat := by
  have hone : (1 : UInt32) ≤ dstSize := by
    rw [UInt32.le_iff_toNat_le]
    exact Nat.succ_le_of_lt (Nat.lt_of_le_of_lt (Nat.zero_le _) hd)
  rw [UInt32.lt_iff_toNat_lt, UInt32.toNat_sub_of_le _ _ hone]
  have : (1 : UInt32).toNat = 1 := rfl
  omega

theorem le_add_iff {di dstSize k : UInt32} (h : di.toNat + k.toNat < 2 ^ 32) :
    dstSize ≤ di + k ↔ dstSize.toNat ≤ di.toNat + k.toNat := by
  rw [UInt32.le_iff_toNat_le, toNat_add_small h]

theorem unicodeToGbkLoop_ends {dstSize : UInt32} (src : List UInt16) (di : UInt32) (dest : Bytes)
    (hd : di.toNat < dstSize.toNat)
    (hwrap : dstSize.toNat + 8 ≤ 2 ^ 32 ∨
      di.toNat + (pieces table flags replaceChar (readable table flags src)).length + 8 ≤ 2 ^ 32) :
    Ends table flags replaceChar dstSize.toNat di.toNat dest (kept table flags replaceChar dstSize.toNat src di.toNat)
      (unicodeToGbkLoop table dstSize flags replaceChar src di di.toNat dest) := by
  have hsize := dstSize.toNat_lt
  induction src generalizing di dest with
  | nil => exact ends_nil rfl hd
  | cons u src ih =>
    rw [kept, unicodeToGbkLoop]
    simp only [lt_pred_iff hd]
    by_cases hroom : di.toNat + 1 < dstSize.toNat
    swap
    · rw [if_neg hroom, if_neg hroom]
      exact ends_nil rfl hd
    rw [if_pos hroom, if_pos hroom]
    have htwo : dstSize ≤ di + 2 ↔ dstSize.toNat ≤ di.toNat + 2 := le_add_iff (k := 2) (show di.toNat + 2 < 2 ^ 32 by omega)
    simp only [htwo]
    by_cases hfails : unmapped table u = true ∧ flags = .error
    · obtain ⟨hascii, hcode, heuro⟩ := unmapped_iff.mp hfails.1
      have hreplace : flags ≠ .replace := by
        rw [hfails.2]
        decide
      rw [if_neg hascii, if_neg hascii, if_pos hfails, if_neg (not_not.mpr hcode), if_neg heuro, if_neg hreplace, if_pos hfails.2]
      split_ifs
      · exact ends_nil rfl hd
      · exact rfl
    rw [readable_cons src hfails, pieces_cons, List.length_append] at hwrap
    -- the next turn, for a piece that has been stored
    have hnext : ∀ (k : UInt32) (dest₁ : Bytes), k.toNat = (piece table flags replaceChar u).length →
        di.toNat + k.toNat < dstSize.toNat → Stores dstSize.toNat di.toNat (piece table flags replaceChar u) dest dest₁ →
        Ends table flags replaceChar dstSize.toNat di.toNat dest
          ((kept table flags replaceChar dstSize.toNat src (di.toNat + k.toNat)).map (u :: ·))
          (unicodeToGbkLoop table dstSize flags replaceChar src (di + k) (di.toNat + k.toNat) dest₁) := by
      intro k dest₁ hk hlt hstores
      have hadd : (di + k).toNat = di.toNat + k.toNat := toNat_add_small (by omega)
      have hrest := ih (di + k) dest₁ (by omega) (by omega)
      rw [hadd] at hrest
      exact Ends.cons hstores (by rw [hk]) hrest
    by_cases hascii : isAsciiUnit u = true
    · rw [if_pos hascii, if_pos hascii]
      rw [piece_ascii hascii] at hnext
      exact hnext 1 _ rfl hroom (stores_store dest (Nat.le_of_lt hroom))
    rw [if_neg hascii, if_neg hascii, if_neg hfails]
    by_cases hfull : dstSize.toNat ≤ di.toNat + 2
    · rw [if_pos hfull, if_pos hfull]
      exact ends_nil rfl hd
    rw [if_neg hfull, if_neg hfull]
    have hcodes : Stores dstSize.toNat di.toNat (codeBytes (table u)) dest (store dest di.toNat (codeBytes (table u))) :=
      stores_store dest (show di.toNat + 2 ≤ dstSize.toNat by omega)
    have hone : ∀ b : UInt8, Stores dstSize.toNat di.toNat [b] dest
        (store (store dest di.toNat (codeBytes (table u))) di.toNat [b]) :=
      fun b => hcodes.overwrite (stores_store _ (show di.toNat + 1 ≤ dstSize.toNat by omega))
    by_cases hcode : table u ≠ 0
    · have hmapped : ¬ unmapped table u = true := fun h => hcode (unmapped_iff.mp h).2.1
      rw [if_pos hcode, if_neg fun h => hmapped h.1]
      rw [piece_code hascii hcode] at hnext ⊢
      exact hnext 2 _ rfl (show di.toNat + 2 < dstSize.toNat by omega) hcodes
    rw [if_neg hcode]
    have hcode := not_not.mp hcode
    by_cases heuro : u = ucs2Euro
    · have hmapped : ¬ unmapped table u = true := fun h => (unmapped_iff.mp h).2.2 heuro
      rw [if_pos heuro, if_neg fun h => hmapped h.1]
      rw [piece_euro hascii hcode heuro] at hnext ⊢
      exact hnext 1 _ rfl hroom (hone gbkEuro)
    rw [if_neg heuro]
    have hu : unmapped table u = true := unmapped_iff.mpr ⟨hascii, hcode, heuro⟩
    rw [piece_unmapped hu] at hnext hwrap ⊢
    simp only [hu, true_and] at hfails ⊢
    by_cases hreplace : flags = .replace
    · have hentites : flags ≠ .entites := by
        rw [hreplace]
        decide
      rw [if_pos hreplace, if_neg fun h => hentites h.1]
      rw [if_pos hreplace] at hnext ⊢
      by_cases hsmall : replaceChar < 256
      · rw [if_pos hsmall] at hnext ⊢
        rw [if_pos hsmall]
        exact hnext 1 _ rfl hroom (hone _)
      · rw [if_neg hsmall] at hnext ⊢
        rw [if_neg hsmall]
        exact hnext 2 _ rfl (show di.toNat + 2 < dstSize.toNat by omega)
          (hcodes.overwrite (stores_store _ (show di.toNat + 2 ≤ dstSize.toNat by omega)))
    rw [if_neg hreplace] at hnext hwrap ⊢
    rw [if_neg hreplace, if_neg hfails]
    by_cases hentites : flags = .entites
    · rw [if_pos hentites, length_entity] at hwrap
      rw [if_pos hentites] at hnext ⊢
      have height : dstSize ≤ di + 8 ↔ dstSize.toNat ≤ di.toNat + 8 := le_add_iff (k := 8) (show di.toNat + 8 < 2 ^ 32 by omega)
      simp only [if_pos hentites, height]
      by_cases hskip : dstSize.toNat ≤ di.toNat + 8
      · rw [if_pos ⟨hentites, hskip⟩, if_pos hskip]
        exact (ih di _ hd (by omega)).skip hcodes
      · rw [if_neg fun h => hskip h.2, if_neg hskip]
        exact hnext 8 _ rfl (show di.toNat + 8 < dstSize.toNat by omega)
          (hcodes.overwrite (stores_store _ (show di.toNat + 8 ≤ dstSize.toNat by omega)))
    · rw [if_neg fun h => hentites h.1, if_neg hentites]
      rw [if_neg hentites] at hnext ⊢
      simpa using hnext 0 _ rfl hd hcodes.nil

/-! ### What is kept -/

variable {size : Nat}

theorem kept_sublist {us ks : List UInt16} {d : Nat} (h : kept table flags replaceChar size us d = some ks) : ks.Sublist us := by
  fun_induction kept table flags replaceChar size us d generalizing ks with
  | case1 =>
    cases h
    exact .slnil
  | case2 u us d hroom hascii ih =>
    obtain ⟨ks', hks', rfl⟩ := Option.map_eq_some_iff.mp h
    exact (ih hks').cons_cons u
  | case3 u us d =>
    cases h
    exact List.nil_sublist _
  | case4 => cases h
  | case5 u us d hroom hascii hfull hfails hskip ih => exact (ih h).cons u
  | case6 u us d hroom hascii hfull hfails hskip ih =>
    obtain ⟨ks', hks', rfl⟩ := Option.map_eq_some_iff.mp h
    exact (ih hks').cons_cons u
  | case7 u us d =>
    cases h
    exact List.nil_sublist _

theorem length_pieces_kept_le {us ks : List UInt16} {d : Nat} (h : kept table flags replaceChar size us d = some ks) :
    (pieces table flags replaceChar ks).length ≤ (pieces table flags replaceChar (readable table flags us)).length := by
  fun_induction kept table flags replaceChar size us d generalizing ks with
  | case1 =>
    cases h
    exact Nat.zero_le _
  | case2 u us d hroom hascii ih =>
    obtain ⟨ks', hks', rfl⟩ := Option.map_eq_some_iff.mp h
    have hfails : ¬ (unmapped table u = true ∧ flags = .error) := fun hu => (unmapped_iff.mp hu.1).1 hascii
    rw [readable_cons us hfails, pieces_cons, pieces_cons, List.length_append, List.length_append]
    exact Nat.add_le_add_left (ih hks') _
  | case3 u us d =>
    cases h
    exact Nat.zero_le _
  | case4 => cases h
  | case5 u us d hroom hascii hfull hfails hskip ih =>
    rw [readable_cons us hfails, pieces_cons, List.length_append]
    exact Nat.le_add_left_of_le (ih h)
  | case6 u us d hroom hascii hfull hfails hskip ih =>
    obtain ⟨ks', hks', rfl⟩ := Option.map_eq_some_iff.mp h
    rw [readable_cons us hfails, pieces_cons, pieces_cons, List.length_append, List.length_append]
    exact Nat.add_le_add_left (ih hks') _
  | case7 u us d =>
    cases h
    exact Nat.zero_le _

theorem kept_ne_none {us : List UInt16} {d : Nat} (h : flags ≠ .error ∨ size ≤ d + 2) :
    kept table flags replaceChar size us d ≠ none := by
  fun_induction kept table flags replaceChar size us d with
  | case1 => simp
  | case2 u us d hroom hascii ih => simpa using ih (h.imp_right fun h => by omega)
  | case3 u us d => simp
  | case4 u us d hroom hascii hfull hfails => exact absurd hfails.2 (h.resolve_right hfull)
  | case5 u us d hroom hascii hfull hfails hskip ih => exact ih h
  | case6 u us d hroom hascii hfull hfails hskip ih => simpa using ih (h.imp_right fun h => by omega)
  | case7 u us d => simp

/-- The bytes of the code units other than unmapped ones that there is room for. -/
def fitting (table : UnicodeTable) (room : Nat) : List UInt16 → List UInt8
  | [] => []
  | u :: us =>
    if isAsciiUnit u then if 1 ≤ room then u.toUInt8 :: fitting table (room - 1) us else []
    else if room < 2 then []
    else if unmapped table u then fitting table room us
    else if table u ≠ 0 then codeBytes (table u) ++ fitting table (room - 2) us
    else gbkEuro :: fitting table (room - 1) us

theorem length_fitting_le (room : Nat) (us : List UInt16) : (fitting table room us).length ≤ room := by
  fun_induction fitting table room us with
  | case1 => exact Nat.zero_le _
  | case2 room u us hascii hroom ih =>
    rw [List.length_cons]
    omega
  | case3 => exact Nat.zero_le _
  | case4 => exact Nat.zero_le _
  | case5 room u us hascii hroom hu ih => exact ih
  | case6 room u us hascii hroom hu hcode ih =>
    rw [List.length_append, show (codeBytes (table u)).length = 2 from rfl]
    omega
  | case7 room u us hascii hroom hu hcode ih =>
    rw [List.length_cons]
    omega

theorem fitting_mono {room room' : Nat} (us : List UInt16) (h : room ≤ room') : fitting table room us <+: fitting table room' us := by
  fun_induction fitting table room us generalizing room' with
  | case1 => exact List.nil_prefix
  | case2 room u us hascii hroom ih =>
    rw [fitting, if_pos hascii, if_pos (Nat.le_trans hroom h), List.cons_prefix_cons]
    exact ⟨rfl, ih (by omega)⟩
  | case3 => exact List.nil_prefix
  | case4 => exact List.nil_prefix
  | case5 room u us hascii hroom hu ih =>
    rw [fitting, if_neg hascii, if_neg (by omega), if_pos hu]
    exact ih h
  | case6 room u us hascii hroom hu hcode ih =>
    rw [fitting, if_neg hascii, if_neg (by omega), if_neg hu, if_pos hcode, List.prefix_append_right_inj]
    exact ih (by omega)
  | case7 room u us hascii hroom hu hcode ih =>
    rw [fitting, if_neg hascii, if_neg (by omega), if_neg hu, if_neg hcode, List.cons_prefix_cons]
    exact ⟨rfl, ih (by omega)⟩

theorem pieces_kept_eq_fitting {us ks : List UInt16} {d : Nat} (hd : size ≤ d + 8)
    (h : kept table .entites replaceChar size us d = some ks) :
    pieces table .entites replaceChar ks = fitting table (size - 1 - d) us := by
  induction us generalizing d ks with
  | nil =>
    cases h
    rfl
  | cons u us ih =>
    rw [kept] at h
    rw [fitting]
    by_cases hroom : d + 1 < size
    swap
    · rw [if_neg hroom] at h
      cases h
      split_ifs <;> first | omega | rfl
    rw [if_pos hroom] at h
    by_cases hascii : isAsciiUnit u = true
    · rw [if_pos hascii] at h
      obtain ⟨ks', hks', rfl⟩ := Option.map_eq_some_iff.mp h
      rw [if_pos hascii, if_pos (by omega), pieces_cons, piece_ascii hascii, ih (by omega) hks', Nat.sub_add_eq]
      rfl
    rw [if_neg hascii] at h ⊢
    by_cases hfull : size ≤ d + 2
    · rw [if_pos hfull] at h
      cases h
      rw [if_pos (by omega)]
      rfl
    have hentites : Flags.entites ≠ Flags.error := by decide
    rw [if_neg hfull, if_neg fun h => hentites h.2] at h
    rw [if_neg (by omega)]
    by_cases hu : unmapped table u = true
    · rw [if_pos ⟨hu, rfl, hd⟩] at h
      rw [if_pos hu]
      exact ih hd h
    rw [if_neg fun h => hu h.1] at h
    obtain ⟨ks', hks', rfl⟩ := Option.map_eq_some_iff.mp h
    rw [if_neg hu, pieces_cons]
    by_cases hcode : table u ≠ 0
    · rw [piece_code hascii hcode] at hks' ⊢
      have hlen : (codeBytes (table u)).length = 2 := rfl
      rw [if_pos hcode, ih (by omega) hks', hlen, Nat.sub_add_eq]
    · have heuro : u = ucs2Euro := by
        by_contra hne
        exact hu (unmapped_iff.mpr ⟨hascii, not_not.mp hcode, hne⟩)
      rw [piece_euro hascii (not_not.mp hcode) heuro] at hks' ⊢
      have hlen : [gbkEuro].length = 1 := rfl
      rw [if_neg hcode, ih (by omega) hks', hlen, Nat.sub_add_eq]
      rfl

/-- What follows an unmapped code unit repeats its entity as far as it fits in place of it. -/
def Repeats (table : UnicodeTable) (us : List UInt16) : Prop :=
  ∀ (a : List UInt16) (u : UInt16) (b : List UInt16), us = a ++ u :: b → unmapped table u = true →
    fitting table 7 b <+: entity u

theorem Repeats.tail {u : UInt16} {us : List UInt16} (h : Repeats table (u :: us)) : Repeats table us :=
  fun a v b hus hv => h (u :: a) v b (by rw [hus, List.cons_append]) hv

theorem kept_mono {s t d : Nat} {us ks kt : List UInt16} (hst : s ≤ t) (hrepeats : flags = .entites → Repeats table us)
    (hks : kept table flags replaceChar s us d = some ks) (hkt : kept table flags replaceChar t us d = some kt) :
    pieces table flags replaceChar ks <+: pieces table flags replaceChar kt := by
  induction us generalizing d ks kt with
  | nil =>
    cases hks
    exact List.nil_prefix
  | cons u us ih =>
    have htail : flags = .entites → Repeats table us := fun hentites => (hrepeats hentites).tail
    -- both calls write the piece
    have hboth : ∀ (d' : Nat) (ks' kt' : Option (List UInt16)), kept table flags replaceChar s us d' = ks' →
        kept table flags replaceChar t us d' = kt' → ks'.map (u :: ·) = some ks → kt'.map (u :: ·) = some kt →
        pieces table flags replaceChar ks <+: pieces table flags replaceChar kt := by
      intro d' ks' kt' hs ht hmaps hmapt
      obtain ⟨ks', rfl, rfl⟩ := Option.map_eq_some_iff.mp hmaps
      obtain ⟨kt', rfl, rfl⟩ := Option.map_eq_some_iff.mp hmapt
      rw [pieces_cons, pieces_cons, List.prefix_append_right_inj]
      exact ih htail hs ht
    rw [kept] at hks hkt
    by_cases hroom : d + 1 < s
    swap
    · rw [if_neg hroom] at hks
      cases hks
      exact List.nil_prefix
    rw [if_pos hroom] at hks
    rw [if_pos (by omega)] at hkt
    by_cases hascii : isAsciiUnit u = true
    · rw [if_pos hascii] at hks hkt
      exact hboth _ _ _ rfl rfl hks hkt
    rw [if_neg hascii] at hks hkt
    by_cases hfull : s ≤ d + 2
    · rw [if_pos hfull] at hks
      cases hks
      exact List.nil_prefix
    rw [if_neg hfull] at hks
    rw [if_neg (by omega)] at hkt
    by_cases hfails : unmapped table u = true ∧ flags = .error
    · rw [if_pos hfails] at hks
      cases hks
    rw [if_neg hfails] at hks hkt
    by_cases hskip : unmapped table u = true ∧ flags = .entites ∧ s ≤ d + 8
    swap
    · rw [if_neg hskip] at hks
      rw [if_neg fun h => hskip ⟨h.1, h.2.1, by omega⟩] at hkt
      exact hboth _ _ _ rfl rfl hks hkt
    rw [if_pos hskip] at hks
    obtain ⟨hu, rfl, hs8⟩ := hskip
    by_cases ht8 : t ≤ d + 8
    · rw [if_pos ⟨hu, rfl, ht8⟩] at hkt
      exact ih htail hks hkt
    · rw [if_neg fun h => ht8 h.2.2] at hkt
      obtain ⟨kt', -, rfl⟩ := Option.map_eq_some_iff.mp hkt
      have hpiece : piece table .entites replaceChar u = entity u := by
        rw [piece_unmapped hu, if_neg (by decide), if_pos rfl]
      rw [pieces_kept_eq_fitting hs8 hks, pieces_cons, hpiece]
      have hfit : fitting table (s - 1 - d) us <+: entity u :=
        (fitting_mono us (show s - 1 - d ≤ 7 by omega)).trans (hrepeats rfl [] u us rfl hu)
      exact hfit.trans (List.prefix_append _ _)

/-! ### A call -/

/-- The bytes that a call counts. -/
def output (r : Int × Bytes) : List UInt8 := (List.range r.1.toNat).map r.2

section call

variable {src : List UInt16} (dest : Bytes) {dstSize : UInt32} (hsize : dstSize ≠ 0)
  (hwrap : dstSize.toNat + 8 ≤ 2 ^ 32 ∨ (pieces table flags replaceChar (readable table flags src)).length + 8 ≤ 2 ^ 32)

include hsize hwrap

theorem unicodeToGbkLoop_start :
    Ends table flags replaceChar dstSize.toNat 0 dest (kept table flags replaceChar dstSize.toNat src 0)
      (unicodeToGbkLoop table dstSize flags replaceChar src 0 0 dest) := by
  refine unicodeToGbkLoop_ends src 0 dest (Nat.pos_of_ne_zero fun h => hsize (UInt32.toNat_inj.mp h)) ?_
  rwa [UInt32.toNat_zero, Nat.zero_add]

theorem unicodeToGbk_none (h : kept table flags replaceChar dstSize.toNat src 0 = none) :
    (unicodeToGbk table src dest dstSize flags replaceChar).1 = -1 := by
  have hends : Ends table flags replaceChar dstSize.toNat 0 dest _ _ := unicodeToGbkLoop_start dest hsize hwrap
  rw [h] at hends
  rw [unicodeToGbk, if_neg hsize]
  cases hr : unicodeToGbkLoop table dstSize flags replaceChar src 0 0 dest with
  | mk di dest' =>
    rw [hr] at hends
    cases hends
    rfl

theorem unicodeToGbk_some {ks : List UInt16} (h : kept table flags replaceChar dstSize.toNat src 0 = some ks) :
    (pieces table flags replaceChar ks).length < dstSize.toNat ∧
    ∃ dest', Stores dstSize.toNat 0 (pieces table flags replaceChar ks) dest dest' ∧
      unicodeToGbk table src dest dstSize flags replaceChar =
        (toInt (pieces table flags replaceChar ks).length, Function.update dest' (pieces table flags replaceChar ks).length 0) := by
  have hends : Ends table flags replaceChar dstSize.toNat 0 dest _ _ := unicodeToGbkLoop_start dest hsize hwrap
  rw [h] at hends
  rw [unicodeToGbk, if_neg hsize]
  cases hr : unicodeToGbkLoop table dstSize flags replaceChar src 0 0 dest with
  | mk di dest' =>
    rw [hr] at hends
    obtain ⟨di, rfl, hdi, hlt, hstores⟩ := hends
    rw [Nat.zero_add] at hdi
    refine ⟨hdi ▸ hlt, dest', hstores, ?_⟩
    have hle : ¬ dstSize ≤ di := by
      rw [UInt32.not_le, UInt32.lt_iff_toNat_lt]
      exact hlt
    simp only [if_neg hle, hdi]

end call

/-- A call ends well: its output is made of whole pieces, it has a `NUL` behind it, and nothing is written outside of
the destination. -/
structure Truncated (table : UnicodeTable) (src : List UInt16) (flags : Flags) (replaceChar : UInt16) (dstSize : UInt32)
    (dest : Bytes) (r : Int × Bytes) : Prop where
  nonneg : 0 ≤ r.1
  lt : r.1 < dstSize.toNat
  nul : r.2 r.1.toNat = 0
  above : ∀ j, dstSize.toNat ≤ j → r.2 j = dest j
  whole : ∃ ks, ks.Sublist src ∧ output r = pieces table flags replaceChar ks

/-- Calls with less room give the same output less its end. -/
def TruncatesAtEnd (table : UnicodeTable) (src : List UInt16) (flags : Flags) (replaceChar : UInt16) : Prop :=
  ∀ (s t : UInt32) (dest dest' : Bytes), 1 ≤ s → s ≤ t →
    (unicodeToGbk table src dest s flags replaceChar).1 ≠ -1 → (unicodeToGbk table src dest' t flags replaceChar).1 ≠ -1 →
    Truncated table src flags replaceChar s dest (unicodeToGbk table src dest s flags replaceChar) ∧
    output (unicodeToGbk table src dest s flags replaceChar) <+: output (unicodeToGbk table src dest' t flags replaceChar)

theorem output_of_stores {bytes : List UInt8} {dest dest' : Bytes} (h : Stores size 0 bytes dest dest') (hlt : bytes.length < 2 ^ 31) :
    output (toInt bytes.length, Function.update dest' bytes.length 0) = bytes := by
  rw [output, toInt_of_lt hlt, Int.toNat_natCast]
  refine List.ext_getElem (by simp) fun k hk hk' => ?_
  rw [List.getElem_map, List.getElem_range]
  show Function.update dest' bytes.length 0 k = bytes[k]
  rw [Function.update_of_ne (by omega), ← h.stored k hk', Nat.zero_add]

theorem truncated_of_stores {src ks : List UInt16} {dest dest' : Bytes} {dstSize : UInt32}
    (h : Stores dstSize.toNat 0 (pieces table flags replaceChar ks) dest dest') (hks : ks.Sublist src)
    (hsize : (pieces table flags replaceChar ks).length < dstSize.toNat) (hlt : (pieces table flags replaceChar ks).length < 2 ^ 31) :
    Truncated table src flags replaceChar dstSize dest
      (toInt (pieces table flags replaceChar ks).length, Function.update dest' (pieces table flags replaceChar ks).length 0) := by
  have hout := output_of_stores h hlt
  rw [toInt_of_lt hlt] at hout ⊢
  refine ⟨Int.natCast_nonneg _, Int.ofNat_lt.mpr hsize, ?_, fun j hj => ?_, ks, hks, hout⟩
  · exact Function.update_self ..
  · show Function.update dest' _ 0 j = dest j
    rw [Function.update_of_ne (by omega), h.above j hj]

theorem truncatesAtEnd_iff_kept {src : List UInt16}
    (hlength : (pieces table flags replaceChar (readable table flags src)).length < 2 ^ 31) :
    TruncatesAtEnd table src flags replaceChar ↔
      ∀ (s t : UInt32) (ks kt : List UInt16), 1 ≤ s → s ≤ t → kept table flags replaceChar s.toNat src 0 = some ks →
        kept table flags replaceChar t.toNat src 0 = some kt →
        pieces table flags replaceChar ks <+: pieces table flags replaceChar kt := by
  have hwrap : (pieces table flags replaceChar (readable table flags src)).length + 8 ≤ 2 ^ 32 := by omega
  have hzero : ∀ s : UInt32, 1 ≤ s → s ≠ 0 := by
    rintro s hs rfl
    exact absurd hs (by decide)
  have hzero' : ∀ s t : UInt32, 1 ≤ s → s ≤ t → t ≠ 0 := fun s t hs hst => hzero t (UInt32.le_trans hs hst)
  constructor
  · intro h s t ks kt hs hst hks hkt
    obtain ⟨-, mem, hstores, hrun⟩ := unicodeToGbk_some (fun _ => 0) (hzero s hs) (Or.inr hwrap) hks
    obtain ⟨-, mem', hstores', hrun'⟩ := unicodeToGbk_some (fun _ => 0) (hzero' s t hs hst) (Or.inr hwrap) hkt
    have hlt := Nat.lt_of_le_of_lt (length_pieces_kept_le hks) hlength
    have hlt' := Nat.lt_of_le_of_lt (length_pieces_kept_le hkt) hlength
    have hruns := h s t (fun _ => 0) (fun _ => 0) hs hst
    rw [hrun, hrun', toInt_of_lt hlt, toInt_of_lt hlt'] at hruns
    have hmono := (hruns (by simp) (by simp)).2
    rwa [← toInt_of_lt hlt, ← toInt_of_lt hlt', output_of_stores hstores hlt, output_of_stores hstores' hlt'] at hmono
  · intro h s t dest dest' hs hst hrs hrt
    cases hks : kept table flags replaceChar s.toNat src 0 with
    | none => exact absurd (unicodeToGbk_none dest (hzero s hs) (Or.inr hwrap) hks) hrs
    | some ks =>
      cases hkt : kept table flags replaceChar t.toNat src 0 with
      | none => exact absurd (unicodeToGbk_none dest' (hzero' s t hs hst) (Or.inr hwrap) hkt) hrt
      | some kt =>
        obtain ⟨hsize, mem, hstores, hrun⟩ := unicodeToGbk_some dest (hzero s hs) (Or.inr hwrap) hks
        obtain ⟨-, mem', hstores', hrun'⟩ := unicodeToGbk_some dest' (hzero' s t hs hst) (Or.inr hwrap) hkt
        have hlt := Nat.lt_of_le_of_lt (length_pieces_kept_le hks) hlength
        have hlt' := Nat.lt_of_le_of_lt (length_pieces_kept_le hkt) hlength
        rw [hrun, hrun']
        refine ⟨truncated_of_stores hstores (kept_sublist hks) hsize hlt, ?_⟩
        rw [output_of_stores hstores hlt, output_of_stores hstores' hlt']
        exact h s t ks kt hs hst hks hkt

theorem kept_cons {u : UInt16} {us : List UInt16} {d : Nat} (hfails : ¬ (unmapped table u = true ∧ flags = .error))
    (hroom : d + 2 < size) (hentity : unmapped table u = true → flags = .entites → d + 8 < size) :
    kept table flags replaceChar size (u :: us) d =
      (kept table flags replaceChar size us (d + (piece table flags replaceChar u).length)).map (u :: ·) := by
  rw [kept, if_pos (by omega)]
  by_cases hascii : isAsciiUnit u = true
  · rw [if_pos hascii, piece_ascii hascii]
    rfl
  · rw [if_neg hascii, if_neg (by omega), if_neg hfails, if_neg]
    rintro ⟨hu, hentites, hle⟩
    have := hentity hu hentites
    omega

theorem kept_append {a b : List UInt16} {d : Nat} (hroom : d + (pieces table .entites replaceChar a).length + 2 < size) :
    kept table .entites replaceChar size (a ++ b) d =
      (kept table .entites replaceChar size b (d + (pieces table .entites replaceChar a).length)).map (a ++ ·) := by
  induction a generalizing d with
  | nil =>
    cases hkept : kept table .entites replaceChar size b d with
    | none => simp [pieces, hkept]
    | some ks => simp [pieces, hkept]
  | cons u a ih =>
    have herror : Flags.entites ≠ Flags.error := by decide
    rw [pieces_cons, List.length_append] at hroom ⊢
    rw [List.cons_append, kept_cons (fun h => herror h.2) (by omega), ih (by omega), Option.map_map, Nat.add_assoc]
    · rfl
    · intro hu _
      rw [piece_unmapped hu, if_neg (by decide), if_pos rfl, length_entity] at hroom
      omega

theorem exists_toNat_eq {n : Nat} (hn : n < 2 ^ 32) : ∃ s : UInt32, s.toNat = n :=
  ⟨UInt32.ofNat n, by rw [UInt32.toNat_ofNat', Nat.mod_eq_of_lt hn]⟩

theorem repeats_of_truncatesAtEnd {src : List UInt16} (hlength : (pieces table .entites replaceChar src).length < 2 ^ 31)
    (h : TruncatesAtEnd table src .entites replaceChar) : Repeats table src := by
  intro a u b hsrc hu
  have hpiece : piece table .entites replaceChar u = entity u := by
    rw [piece_unmapped hu, if_neg (by decide), if_pos rfl]
  have herror : Flags.entites ≠ Flags.error := by decide
  have ha : (pieces table .entites replaceChar a).length < 2 ^ 31 := by
    refine Nat.lt_of_le_of_lt ?_ hlength
    rw [hsrc, pieces, pieces, List.flatMap_append, List.length_append]
    exact Nat.le_add_right _ _
  have hsome : ∀ (size : Nat) (us : List UInt16) (d : Nat), ∃ k, kept table .entites replaceChar size us d = some k :=
    fun size us d => Option.ne_none_iff_exists'.mp (kept_ne_none (Or.inl herror))
  obtain ⟨s, hs⟩ := exists_toNat_eq (show (pieces table .entites replaceChar a).length + 8 < 2 ^ 32 by omega)
  obtain ⟨t, ht⟩ := exists_toNat_eq (show (pieces table .entites replaceChar a).length + 9 < 2 ^ 32 by omega)
  -- with `s` bytes the entity is left out, with one more it is written
  obtain ⟨k, hk⟩ := hsome s.toNat b (pieces table .entites replaceChar a).length
  obtain ⟨k', hk'⟩ := hsome t.toNat b ((pieces table .entites replaceChar a).length + 8)
  have hks : kept table .entites replaceChar s.toNat src 0 = some (a ++ k) := by
    rw [hsrc, kept_append (by omega), Nat.zero_add, kept, if_pos (by omega), if_neg (unmapped_iff.mp hu).1, if_neg (by omega),
      if_neg fun h => herror h.2, if_pos ⟨hu, rfl, by omega⟩, hk]
    rfl
  have hkt : kept table .entites replaceChar t.toNat src 0 = some (a ++ u :: k') := by
    rw [hsrc, kept_append (by omega), Nat.zero_add, kept_cons (fun h => herror h.2) (by omega) (fun _ _ => by omega), hpiece,
      length_entity, hk']
    rfl
  have hreadable : readable table .entites src = src := if_neg herror
  have hmono := (truncatesAtEnd_iff_kept (by rwa [hreadable])).mp h s t _ _ (UInt32.le_iff_toNat_le.mpr (by simp; omega))
    (UInt32.le_iff_toNat_le.mpr (by omega)) hks hkt
  rw [pieces, pieces, List.flatMap_append, List.flatMap_append, List.prefix_append_right_inj, List.flatMap_cons, hpiece] at hmono
  have hfit : pieces table .entites replaceChar k = fitting table 7 b := by
    rw [pieces_kept_eq_fitting (by omega) hk, hs]
    congr 1
    omega
  have hshort : (fitting table 7 b).length ≤ 7 := length_fitting_le 7 b
  rw [← hfit] at hshort ⊢
  exact List.prefix_of_prefix_length_le hmono (List.prefix_append _ _) (by rw [length_entity]; omega)

theorem kept_long {us : List UInt16} {d : Nat} (hentites : flags = .entites → 2 ^ 31 + 8 ≤ size)
    (herror : flags = .error → size = 2 ^ 31 + 2) (hsize : 2 ^ 31 + 2 ≤ size) (hd : d < 2 ^ 31)
    (hlong : 2 ^ 31 ≤ d + (pieces table flags replaceChar (readable table flags us)).length) :
    ∃ ks, kept table flags replaceChar size us d = some ks ∧ 2 ^ 31 ≤ d + (pieces table flags replaceChar ks).length := by
  induction us generalizing d with
  | nil =>
    have hnil : readable table flags [] = [] := by
      unfold readable
      split_ifs <;> rfl
    rw [hnil, pieces, List.flatMap_nil, List.length_nil] at hlong
    omega
  | cons u us ih =>
    by_cases hfails : unmapped table u = true ∧ flags = .error
    · rw [readable_fail us hfails, pieces, List.flatMap_nil, List.length_nil] at hlong
      omega
    rw [readable_cons us hfails, pieces_cons, List.length_append] at hlong
    rw [kept_cons hfails (by omega) (fun _ h => by have := hentites h; omega)]
    by_cases hnext : d + (piece table flags replaceChar u).length < 2 ^ 31
    · obtain ⟨ks, hks, hlen⟩ := ih hnext (by omega)
      refine ⟨u :: ks, by rw [hks, Option.map_some], ?_⟩
      rw [pieces_cons, List.length_append]
      omega
    · have hne : kept table flags replaceChar size us (d + (piece table flags replaceChar u).length) ≠ none := by
        refine kept_ne_none ?_
        by_cases hflag : flags = .error
        · have := herror hflag
          exact Or.inr (by omega)
        · exact Or.inl hflag
      obtain ⟨ks, hks⟩ := Option.ne_none_iff_exists'.mp hne
      refine ⟨u :: ks, by rw [hks, Option.map_some], ?_⟩
      rw [pieces_cons, List.length_append]
      omega

theorem length_lt_of_truncatesAtEnd {src : List UInt16} (h : TruncatesAtEnd table src flags replaceChar) :
    (pieces table flags replaceChar (readable table flags src)).length < 2 ^ 31 := by
  by_contra hlong
  obtain ⟨t, ht⟩ : ∃ t : UInt32, t.toNat = if flags = .entites then 2 ^ 31 + 8 else 2 ^ 31 + 2 := by
    refine exists_toNat_eq ?_
    split_ifs <;> omega
  have hentites : flags = .entites → 2 ^ 31 + 8 ≤ t.toNat := fun hflags => Nat.le_of_eq (by rw [ht, if_pos hflags])
  have herror : flags = .error → t.toNat = 2 ^ 31 + 2 := fun hflags => by rw [ht, hflags, if_neg (by decide)]
  have hbounds : 2 ^ 31 + 2 ≤ t.toNat ∧ t.toNat + 8 ≤ 2 ^ 32 := by
    rw [ht]
    split_ifs <;> omega
  have hlong : 2 ^ 31 ≤ 0 + (pieces table flags replaceChar (readable table flags src)).length := by omega
  obtain ⟨ks, hks, hlen⟩ := kept_long hentites herror hbounds.1 (by decide) hlong
  have hone : 1 ≤ t := UInt32.le_iff_toNat_le.mpr (show 1 ≤ t.toNat by omega)
  have ht0 : t ≠ 0 := by
    rintro rfl
    exact absurd hone (by decide)
  obtain ⟨hlt, mem, -, hrun⟩ := unicodeToGbk_some (fun _ => 0) ht0 (Or.inl hbounds.2) hks
  have hneg : toInt (pieces table flags replaceChar ks).length < 0 := toInt_neg (by omega) (by omega)
  have hret := congrArg Prod.fst hrun
  dsimp only at hret
  have hne : (unicodeToGbk table src (fun _ => 0) t flags replaceChar).1 ≠ -1 := by
    rw [hret]
    exact toInt_ne_neg_one (by omega)
  have hnonneg := (h t t _ _ hone (UInt32.le_refl t) hne hne).1.nonneg
  rw [hret] at hnonneg
  omega

end Raster.Uconv
