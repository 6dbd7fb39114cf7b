import Raster.Json.Strings

/-!
# What is printed is read back

`parseJson` after `serialize`, for values without `double`s, however they are printed and in whatever order a hash table has its items.
-/

namespace Raster.Json

open Conv Lib

variable {D : Type}

/-! ### Values -/

namespace Dynamic

theorem induction {motive : Dynamic D → Prop} (nullt : motive .nullt) (bool : ∀ b, motive (.bool b)) (int64 : ∀ i, motive (.int64 i))
    (double : ∀ x, motive (.double x)) (string : ∀ s, motive (.string s)) (array : ∀ vs, (∀ v ∈ vs, motive v) → motive (.array vs))
    (object : ∀ items, (∀ p ∈ items, motive p.2) → motive (.object items)) (v : Dynamic D) : motive v :=
  @Dynamic.rec D motive (fun vs => ∀ v ∈ vs, motive v) (fun items => ∀ p ∈ items, motive p.2) (fun p => motive p.2)
    nullt bool int64 double string array object (fun _ h => absurd h List.not_mem_nil)
    (fun _ _ hv hvs => List.forall_mem_cons.2 ⟨hv, hvs⟩) (fun _ h => absurd h List.not_mem_nil)
    (fun _ _ hp hitems => List.forall_mem_cons.2 ⟨hp, hitems⟩) (fun _ _ hv => hv) v

mutual

/-- How deep arrays and objects are nested, with 1 for a value that is neither. -/
def depth : Dynamic D → Nat
  | .array vs => depths vs + 1
  | .object items => itemDepths items + 1
  | _ => 1

def depths : List (Dynamic D) → Nat
  | [] => 0
  | v :: vs => max (depth v) (depths vs)

def itemDepths : List (List UInt8 × Dynamic D) → Nat
  | [] => 0
  | (_, v) :: items => max (depth v) (itemDepths items)

end

mutual

/-- The keys of each object are distinct, as those of a hash table are, and each `double` is as it is asked to be. -/
def Valid (P : D → Prop) : Dynamic D → Prop
  | .double x => P x
  | .array vs => AllValid P vs
  | .object items => (items.map Prod.fst).Nodup ∧ ItemsValid P items
  | _ => True

def AllValid (P : D → Prop) : List (Dynamic D) → Prop
  | [] => True
  | v :: vs => Valid P v ∧ AllValid P vs

def ItemsValid (P : D → Prop) : List (List UInt8 × Dynamic D) → Prop
  | [] => True
  | (_, v) :: items => Valid P v ∧ ItemsValid P items

end

/-- There is no `double`. -/
def Exact (v : Dynamic D) : Prop := v.Valid fun _ => False

theorem depth_pos (v : Dynamic D) : 0 < depth v := by
  cases v <;> simp [depth]

theorem depths_le {vs : List (Dynamic D)} {n : Nat} : depths vs ≤ n ↔ ∀ v ∈ vs, depth v ≤ n := by
  induction vs with
  | nil => simp [depths]
  | cons v vs ih => rw [depths, Nat.max_le, ih, List.forall_mem_cons]

theorem itemDepths_le {items : List (List UInt8 × Dynamic D)} {n : Nat} : itemDepths items ≤ n ↔ ∀ p ∈ items, depth p.2 ≤ n := by
  induction items with
  | nil => simp [itemDepths]
  | cons p items ih => rw [itemDepths, Nat.max_le, ih, List.forall_mem_cons]

theorem allValid_iff {P : D → Prop} {vs : List (Dynamic D)} : AllValid P vs ↔ ∀ v ∈ vs, Valid P v := by
  induction vs with
  | nil => simp [AllValid]
  | cons v vs ih => rw [AllValid, ih, List.forall_mem_cons]

theorem itemsValid_iff {P : D → Prop} {items : List (List UInt8 × Dynamic D)} : ItemsValid P items ↔ ∀ p ∈ items, Valid P p.2 := by
  induction items with
  | nil => simp [ItemsValid]
  | cons p items ih => rw [ItemsValid, ih, List.forall_mem_cons]

theorem find_of_mem {items : List (List UInt8 × Dynamic D)} (hnodup : (items.map Prod.fst).Nodup) {key : List UInt8} {v : Dynamic D}
    (hmem : (key, v) ∈ items) : find key items = some v := by
  induction items with
  | nil => cases hmem
  | cons p items ih =>
    obtain ⟨k, w⟩ := p
    rw [List.map_cons, List.nodup_cons] at hnodup
    obtain ⟨hnot, hnodup⟩ := hnodup
    rw [find]
    obtain heq | hmem := List.mem_cons.1 hmem
    · obtain ⟨rfl, rfl⟩ := Prod.mk.inj heq
      exact if_pos rfl
    · have hkey : key ∈ items.map Prod.fst := List.mem_map.2 ⟨_, hmem, rfl⟩
      rw [if_neg fun h : k = key => hnot (h ▸ hkey), ih hnodup hmem]

theorem find_none {items : List (List UInt8 × Dynamic D)} {key : List UInt8} (hnot : key ∉ items.map Prod.fst) :
    find key items = none := by
  induction items with
  | nil => rfl
  | cons p items ih =>
    rw [List.map_cons, List.mem_cons, not_or] at hnot
    rw [find, if_neg fun h => hnot.1 h.symm, ih hnot.2]

theorem eqItems_of {d : Doubles D} {items items' : List (List UInt8 × Dynamic D)}
    (h : ∀ p ∈ items, ∃ w, find p.1 items' = some w ∧ eq d p.2 w = true) : eqItems d items items' = true := by
  induction items with
  | nil => rfl
  | cons p items ih =>
    obtain ⟨⟨w, hfind, heq⟩, hitems⟩ := List.forall_mem_cons.1 h
    rw [eqItems, hfind, ih hitems, Bool.and_true]
    exact heq

end Dynamic

/-! ### The layout of arrays and objects -/

section Layout

variable (level : Option Nat)

/-- What is behind the first of some texts. -/
def tailText (outs : List (List UInt8)) : List UInt8 := outs.flatMap fun out => 44 :: (newline level ++ out)

/-- The texts between brackets. -/
def layout (first last : UInt8) : List (List UInt8) → List UInt8
  | [] => [first, last]
  | out :: outs => first :: (newline (level.map (· + 1)) ++ (out ++ (tailText (level.map (· + 1)) outs ++ (newline level ++ [last]))))

theorem joined_ok {texts : List (Except Error (List UInt8))} {out : List UInt8} (h : joined level texts = .ok out) :
    ∃ outs, texts = outs.map Except.ok ∧ out = tailText level outs := by
  induction texts generalizing out with
  | nil =>
    cases h
    exact ⟨[], rfl, rfl⟩
  | cons text texts ih =>
    obtain ⟨o, rfl, htexts⟩ := bind_eq_ok.1 h
    obtain ⟨out', hrest, hout⟩ := bind_eq_ok.1 htexts
    cases hout
    obtain ⟨outs, rfl, rfl⟩ := ih hrest
    refine ⟨o :: outs, rfl, ?_⟩
    simp [tailText]

theorem enclosed_ok {first last : UInt8} {texts : List (Except Error (List UInt8))} {out : List UInt8}
    (h : enclosed level first last texts = .ok out) : ∃ outs, texts = outs.map Except.ok ∧ out = layout level first last outs := by
  obtain - | ⟨text, texts⟩ := texts
  · cases h
    exact ⟨[], rfl, rfl⟩
  · obtain ⟨o, rfl, htexts⟩ := bind_eq_ok.1 h
    obtain ⟨out', hrest, hout⟩ := bind_eq_ok.1 htexts
    cases hout
    obtain ⟨outs, rfl, rfl⟩ := joined_ok _ hrest
    refine ⟨o :: outs, rfl, ?_⟩
    simp [layout]

theorem forall₂_of_map {α : Type} {f : α → Except Error (List UInt8)} {as : List α} {outs : List (List UInt8)}
    (h : as.map f = outs.map Except.ok) : List.Forall₂ (fun a out => f a = .ok out) as outs := by
  induction as generalizing outs with
  | nil =>
    obtain rfl := List.map_eq_nil_iff.1 h.symm
    exact .nil
  | cons a as ih =>
    obtain - | ⟨out, outs⟩ := outs
    · cases h
    · rw [List.map_cons, List.map_cons, List.cons.injEq] at h
      exact .cons h.1 (ih h.2)

theorem length_tailText (outs : List (List UInt8)) : outs.length ≤ (tailText level outs).length := by
  induction outs with
  | nil => exact Nat.le_refl 0
  | cons out outs ih =>
    rw [tailText, List.flatMap_cons, List.length_append, List.length_cons, List.length_cons]
    rw [tailText] at ih
    omega

end Layout

/-! ### White space -/

/-- What `skipWhitespace` leaves. -/
def trim (s : List UInt8) : List UInt8 := s.dropWhile fun c => c == 32 || isOddspace c

theorem skipWhitespace_eq (range : List UInt8) (l : UInt32) : Input.skipWhitespace ⟨range, l⟩ = ⟨trim range, l⟩ := rfl

theorem trim_cons {c : UInt8} (hc : (c == 32 || isOddspace c) = false) (s : List UInt8) : trim (c :: s) = c :: s :=
  List.dropWhile_cons_of_neg (by simp [hc])

theorem trim_newline (level : Option Nat) (s : List UInt8) : trim (newline level ++ s) = trim s := by
  have hspaces (n : Nat) : trim (List.replicate n 32 ++ s) = trim s := by
    induction n with
    | zero => rfl
    | succ n ih => exact ih
  cases level with
  | none => rfl
  | some level => exact hspaces (level * 2)

theorem trim_trim (s : List UInt8) : trim (trim s) = trim s := by
  induction s with
  | nil => rfl
  | cons c s ih =>
    by_cases hc : (c == 32 || isOddspace c) = true
    · rw [show trim (c :: s) = trim s from List.dropWhile_cons_of_pos hc, ih]
    · rw [trim_cons (by simpa using hc), trim_cons (by simpa using hc)]

/-- How a printed value starts. -/
def startsValue (c : UInt8) : Bool := isdigit c || c == 45 || c == 34 || c == 91 || c == 123 || c == 116 || c == 102 || c == 110

def Starts (out : List UInt8) : Prop := ∃ c cs, out = c :: cs ∧ startsValue c = true

theorem startsValue_facts {c : UInt8} (hc : startsValue c = true) :
    (c == 32 || isOddspace c) = false ∧ c ≠ 93 ∧ c ≠ 125 ∧ c ≠ 44 := by
  have hall : ∀ b : Fin 256, startsValue (UInt8.ofNat b) = true →
      (UInt8.ofNat b == 32 || isOddspace (UInt8.ofNat b)) = false ∧ UInt8.ofNat b ≠ 93 ∧ UInt8.ofNat b ≠ 125 ∧ UInt8.ofNat b ≠ 44 := by
    decide +kernel
  have hb := hall ⟨c.toNat, UInt8.toNat_lt c⟩
  rw [UInt8.ofNat_toNat] at hb
  exact hb hc

/-- What may be behind a number. -/
def Ends (rest : List UInt8) : Prop := ∀ c ∈ rest.head?, isdigit c = false ∧ c ≠ 46 ∧ c ≠ 101 ∧ c ≠ 69

/-! ### Numbers -/

/-- Doubles that are whole numbers. -/
def wholeDoubles : Doubles Int where
  toAppend x := text x
  parse s := toIntegral true .w64 s
  isnan _ := false
  isinf _ := false
  infinity := 2 ^ 1024
  negInfinity := -2 ^ 1024
  quietNaN := 0
  ofInt i := i.toInt
  toInt x := Int64.ofInt x
  beq x y := x == y

section Print

variable (d : Doubles D) (popts : SerializationOpts)

theorem printInt_ok {i : Int64} {out : List UInt8} (h : printInt d popts i = .ok out) : out = text i.toInt := by
  have happend (i : Int64) : Conv.toAppend (List.replicate 20 0) i.toInt [] = some (text i.toInt) := by
    have hlow := Int64.le_toInt i
    have hhigh := Int64.toInt_lt i
    exact Conv.toAppend_eq (by decide) hlow (Int.lt_trans hhigh (by decide)) []
  obtain ⟨intval, hint, hout⟩ := bind_eq_ok.1 h
  rw [happend] at hout
  obtain rfl := Except.ok.inj hout
  unfold intValue toDouble at hint
  split_ifs at hint with hsafe hne
  · cases hint
  · obtain rfl := Except.ok.inj hint
    rw [← not_not.1 hne]
  · cases hint
    rfl

end Print

section Parse

variable (d : Doubles D) (opts : SerializationOpts)

theorem text_cases (v : Int) : ∃ ds : List Nat, ds ≠ [] ∧ (∀ d ∈ ds, d < 10) ∧
    (v < 0 ∧ text v = 45 :: ds.map digit ∨ 0 ≤ v ∧ text v = ds.map digit) := by
  refine ⟨numeral 10 v.natAbs, List.length_pos_iff.1 (length_numeral_pos 10 _), numeral_lt (by decide), ?_⟩
  unfold text
  split_ifs with hneg
  · exact .inl ⟨hneg, rfl⟩
  · exact .inr ⟨by omega, rfl⟩

theorem starts_text (v : Int) : Starts (text v) := by
  obtain ⟨- | ⟨k, ds⟩, hne, hlt, ⟨-, h⟩ | ⟨-, h⟩⟩ := text_cases v
  · exact absurd rfl hne
  · exact absurd rfl hne
  · exact ⟨_, _, h, rfl⟩
  · refine ⟨_, _, h, ?_⟩
    rw [startsValue, isdigit_digit (hlt k List.mem_cons_self)]
    rfl

theorem skipDigits_eq {ds : List Nat} (hds : ∀ d ∈ ds, d < 10) {rest : List UInt8} (hrest : ∀ c ∈ rest.head?, isdigit c = false)
    (l : UInt32) : Input.skipDigits ⟨ds.map digit ++ rest, l⟩ = (ds.map digit, ⟨rest, l⟩) := by
  have hdigits : ∀ c ∈ ds.map digit, isdigit c = true := by
    intro c hc
    obtain ⟨d, hd, rfl⟩ := List.mem_map.1 hc
    exact isdigit_digit (hds d hd)
  have hline : (ds.map digit).count 10 = 0 := by
    rw [List.count_eq_zero]
    exact fun hmem => absurd (hdigits 10 hmem) (by decide)
  obtain ⟨hdrop, htake⟩ := dropWhile_append_of hdigits hrest
  simp only [Input.skipDigits, Input.skipWhile, hdrop, htake, lines_eq_zero hline, UInt32.add_zero]

theorem skipMinusAndDigits_text (v : Int) {rest : List UInt8} (hrest : ∀ c ∈ rest.head?, isdigit c = false) (l : UInt32) :
    Input.skipMinusAndDigits ⟨text v ++ rest, l⟩ = (text v, ⟨rest, l⟩) := by
  obtain ⟨ds, hne, hlt, ⟨-, h⟩ | ⟨-, h⟩⟩ := text_cases v
  · rw [h]
    show ((45 :: (Input.skipDigits ⟨ds.map digit ++ rest, l⟩).1, (Input.skipDigits ⟨ds.map digit ++ rest, l⟩).2) : List UInt8 × Input) = _
    rw [skipDigits_eq hlt hrest]
  · rw [h, ← skipDigits_eq hlt hrest]
    unfold Input.skipMinusAndDigits
    split
    · next cs hrange =>
      obtain - | ⟨k, ds⟩ := ds
      · exact absurd rfl hne
      · have hdigit := isdigit_digit (hlt k List.mem_cons_self)
        rw [List.map_cons, List.cons_append] at hrange
        rw [(List.cons.inj hrange).1] at hdigit
        exact absurd hdigit (by decide)
    · rfl

theorem toIntegral_text {v : Int} (hrange : InRange true .w64 v) : toIntegral true .w64 (text v) = .ok v := by
  have hreads : Reads true ([] ++ (text v ++ [])) v [] := reads_text hrange (by simp) (by simp)
  rw [List.nil_append, List.append_nil] at hreads
  exact toIntegral_of_reads (by simp) hreads hrange

theorem parseNumber_digits (v : Int) {rest : List UInt8} (hrest : Ends rest) (l : UInt32) (hstrings : opts.parseNumbersAsStrings = false) :
    parseNumber d opts ⟨text v ++ rest, l⟩ =
      if readsInt opts (decide (v < 0)) (text v) then
        ofRange (toIntegral true .w64 (text v)) >>= fun val => .ok (.int64 (Int64.ofInt val), ⟨trim rest, l⟩)
      else ofRange (d.parse (text v)) >>= fun val => .ok (.double val, ⟨trim rest, l⟩) := by
  have hdigit : ∀ c ∈ rest.head?, isdigit c = false := fun c hc => (hrest c hc).1
  have hskip := skipMinusAndDigits_text v hdigit l
  have hcurrent : Input.current ⟨rest, l⟩ ≠ some 46 ∧ ¬atExponent ⟨rest, l⟩ := by
    refine ⟨fun h => (hrest 46 h).2.1 rfl, ?_⟩
    rintro (h | h)
    · exact (hrest 101 h).2.2.1 rfl
    · exact (hrest 69 h).2.2.2 rfl
  have hfirst : (Input.current ⟨text v ++ rest, l⟩ == some 45) = decide (v < 0) ∧
      (v < 0 → 2 ≤ (text v).length ∧ Input.consume (45 :: infinityText) ⟨text v ++ rest, l⟩ = none) := by
    obtain ⟨- | ⟨k, ds⟩, hne, hlt, ⟨hneg, htext⟩ | ⟨hpos, htext⟩⟩ := text_cases v
    · exact absurd rfl hne
    · exact absurd rfl hne
    · have hk := isdigit_digit (hlt k List.mem_cons_self)
      rw [htext, decide_eq_true hneg]
      refine ⟨rfl, fun _ => ⟨by simp, Option.eq_none_iff_forall_not_mem.2 fun s' hs' => ?_⟩⟩
      obtain ⟨rest', hrange, -⟩ := consume_iff.1 hs'
      obtain ⟨-, htail⟩ := List.cons.inj hrange
      rw [(List.cons.inj htail).1] at hk
      exact absurd hk (by decide)
    · have hk := isdigit_digit (hlt k List.mem_cons_self)
      rw [htext, decide_eq_false (Int.not_lt.2 hpos)]
      refine ⟨?_, fun hneg => absurd hneg (Int.not_lt.2 hpos)⟩
      rw [← Bool.not_eq_true]
      intro heq
      obtain hminus : digit k = 45 := by simpa [Input.current] using heq
      rw [hminus] at hk
      exact absurd hk (by decide)
  have hnone : (if decide (v < 0) = true then Input.consume (45 :: infinityText) ⟨text v ++ rest, l⟩ else none) = none := by
    split_ifs with hneg
    · exact (hfirst.2 (of_decide_eq_true hneg)).2
    · rfl
  unfold parseNumber
  rw [hskip, hfirst.1]
  dsimp only
  rw [hnone]
  dsimp only
  rw [if_neg fun h => absurd h.2 (Nat.not_lt.2 (hfirst.2 (of_decide_eq_true h.1)).1), if_pos hcurrent, hstrings,
    if_neg Bool.false_ne_true]
  rfl

theorem parseNumber_text (i : Int64) {rest : List UInt8} (hrest : Ends rest) (l : UInt32) (hdoubles : opts.doubleFallback = false)
    (hstrings : opts.parseNumbersAsStrings = false) :
    parseNumber d opts ⟨text i.toInt ++ rest, l⟩ = .ok (.int64 i, ⟨trim rest, l⟩) := by
  have hint : readsInt opts (decide (i.toInt < 0)) (text i.toInt) = true := by simp [readsInt, hdoubles]
  have hrange : InRange true .w64 i.toInt := ⟨Int64.le_toInt i, Int64.toInt_lt i⟩
  rw [parseNumber_digits d opts _ hrest l hstrings, if_pos hint, toIntegral_text hrange]
  show Except.ok (Dynamic.int64 (Int64.ofInt i.toInt), _) = _
  rw [Int64.ofInt_toInt]

theorem readsInt_text (hdoubles : opts.doubleFallback = true) (v : Int) :
    readsInt opts (decide (v < 0)) (text v) = true ↔ InRange true .w64 v ∧ ¬(10 ^ 17 ≤ -v ∧ -v < 10 ^ 18) := by
  have hdigits : ∀ d ∈ numeral 10 v.natAbs, d < 10 := numeral_lt (by decide)
  have hvalue : ofNumeral 10 (numeral 10 v.natAbs) = v.natAbs := ofNumeral_numeral 10 _
  have hlen (k : Nat) : (numeral 10 v.natAbs).length ≤ k + 1 ↔ v.natAbs < 10 ^ (k + 1) := length_numeral_le_iff (by decide)
  have h17 := hlen 16
  have h18 := hlen 17
  have h19 := hlen 18
  have hrange : InRange true .w64 v ↔ -2 ^ 63 ≤ v ∧ v < 2 ^ 63 := Iff.rfl
  rw [hrange]
  by_cases hneg : v < 0
  · have htext : text v = 45 :: (numeral 10 v.natAbs).map digit := by rw [text, if_pos hneg, List.singleton_append]
    have hcompare : (numeral 10 v.natAbs).length = 19 → (strncmpLe (text v) minInt = true ↔ v.natAbs ≤ 2 ^ 63) := by
      intro hlength
      have hmin : minInt = 45 :: (numeral 10 (2 ^ 63)).map digit := by decide +kernel
      have htail : strncmpLe (text v) minInt = strncmpLe ((numeral 10 v.natAbs).map digit) ((numeral 10 (2 ^ 63)).map digit) := by
        rw [htext, hmin]
        simp [strncmpLe, lexLe]
      rw [htail, strncmpLe_digits (by rw [hlength]; rfl) hdigits (numeral_lt (by decide)), hvalue, ofNumeral_numeral]
    have hreads : readsInt opts (decide (v < 0)) (text v) = true ↔ (numeral 10 v.natAbs).length + 1 < 19 ∨
        (numeral 10 v.natAbs).length + 1 = 20 ∧ strncmpLe (text v) minInt = true := by
      rw [decide_eq_true hneg, htext]
      simp [readsInt, hdoubles, maxInt, minInt]
    rw [hreads]
    constructor
    · rintro (hshort | ⟨hlong, hle⟩)
      · omega
      · have := (hcompare (by omega)).1 hle
        omega
    · rintro ⟨⟨hlow, hhigh⟩, hgap⟩
      by_cases hshort : (numeral 10 v.natAbs).length ≤ 17
      · exact .inl (by omega)
      · exact .inr ⟨by omega, (hcompare (by omega)).2 (by omega)⟩
  · have htext : text v = (numeral 10 v.natAbs).map digit := by rw [text, if_neg hneg, List.nil_append]
    have hcompare : (numeral 10 v.natAbs).length = 19 → (strncmpLe (text v) maxInt = true ↔ v.natAbs ≤ 2 ^ 63 - 1) := by
      intro hlength
      have hmax : maxInt = (numeral 10 (2 ^ 63 - 1)).map digit := by decide +kernel
      rw [htext, hmax, strncmpLe_digits (by rw [hlength]; rfl) hdigits (numeral_lt (by decide)), hvalue, ofNumeral_numeral]
    have hreads : readsInt opts (decide (v < 0)) (text v) = true ↔ (numeral 10 v.natAbs).length < 19 ∨
        (numeral 10 v.natAbs).length = 19 ∧ strncmpLe (text v) maxInt = true := by
      rw [decide_eq_false hneg, htext]
      simp [readsInt, hdoubles, maxInt]
    rw [hreads]
    constructor
    · rintro (hshort | ⟨hlong, hle⟩)
      · omega
      · have := (hcompare hlong).1 hle
        omega
    · rintro ⟨⟨hlow, hhigh⟩, -⟩
      by_cases hshort : (numeral 10 v.natAbs).length ≤ 18
      · exact .inl (by omega)
      · exact .inr ⟨by omega, (hcompare (by omega)).2 (by omega)⟩

/-- **With `double_fallback`** exactly the digits of the `int64_t`s are read as integers, but for the negative numbers of 18 digits,
whose text with the sign is as long as the largest number's: they become `double`s. -/
theorem parseNumber_doubleFallback (v : Int) {rest : List UInt8} (hrest : Ends rest) (l : UInt32) (hdoubles : opts.doubleFallback = true)
    (hstrings : opts.parseNumbersAsStrings = false) :
    parseNumber d opts ⟨text v ++ rest, l⟩ =
      if InRange true .w64 v ∧ ¬(10 ^ 17 ≤ -v ∧ -v < 10 ^ 18) then .ok (.int64 (Int64.ofInt v), ⟨trim rest, l⟩)
      else (ofRange (d.parse (text v))).map fun val => (.double val, ⟨trim rest, l⟩) := by
  rw [parseNumber_digits d opts v hrest l hstrings]
  by_cases hint : InRange true .w64 v ∧ ¬(10 ^ 17 ≤ -v ∧ -v < 10 ^ 18)
  · have hnumber : ofRange (toIntegral true .w64 (text v)) = .ok v := by
      rw [toIntegral_text hint.1]
      rfl
    rw [if_pos hint, if_pos ((readsInt_text opts hdoubles v).2 hint), hnumber]
    rfl
  · rw [if_neg hint, if_neg fun h => hint ((readsInt_text opts hdoubles v).1 h)]
    cases ofRange (d.parse (text v)) <;> rfl

end Parse

theorem parseNumber_doubleFallback_gap :
    parseNumber wholeDoubles { doubleFallback := true } ⟨text (-10 ^ 17) ++ [93], 0⟩ =
      if InRange true .w64 (-10 ^ 17) ∧ ¬(10 ^ 17 ≤ -(-10 ^ 17 : Int) ∧ -(-10 ^ 17 : Int) < 10 ^ 18) then
        .ok (.int64 (Int64.ofInt (-10 ^ 17)), ⟨trim [93], 0⟩)
      else (ofRange (wholeDoubles.parse (text (-10 ^ 17)))).map fun val => (.double val, ⟨trim [93], 0⟩) :=
  parseNumber_doubleFallback wholeDoubles _ (-10 ^ 17) (by simp [Ends, isdigit]) 0 rfl rfl

/-! ### Objects -/

section Objects

variable {d : Doubles D}

/-- The items of an object that were read from those of another, one by one. -/
structure Built (d : Doubles D) (items ret : List (List UInt8 × Dynamic D)) : Prop where
  keys : (ret.map Prod.fst).Perm (items.map Prod.fst)
  values : ∀ p ∈ items, ∃ w, (p.1, w) ∈ ret ∧ Dynamic.eq d p.2 w = true

theorem Built.insert {items ret : List (List UInt8 × Dynamic D)} (h : Built d items ret) (hash : HashOrder D)
    {p : List UInt8 × Dynamic D} (hnew : p.1 ∉ items.map Prod.fst) {w : Dynamic D} (heq : Dynamic.eq d p.2 w = true) :
    Built d (items ++ [p]) (insert hash p.1 w ret) := by
  have hfind : Dynamic.find p.1 ret = none := Dynamic.find_none fun hmem => hnew (h.keys.mem_iff.1 hmem)
  have hinsert : Json.insert hash p.1 w ret = hash.order (ret ++ [(p.1, w)]) := by
    rw [Json.insert, hfind]
    rfl
  have hperm := hash.perm (ret ++ [(p.1, w)])
  rw [hinsert]
  constructor
  · refine (hperm.map Prod.fst).trans ?_
    rw [List.map_append, List.map_append]
    exact h.keys.append_right _
  · intro q hq
    obtain hq | hq := List.mem_append.1 hq
    · obtain ⟨w', hmem, heq'⟩ := h.values q hq
      exact ⟨w', hperm.mem_iff.2 (List.mem_append_left _ hmem), heq'⟩
    · obtain rfl := List.mem_singleton.1 hq
      exact ⟨w, hperm.mem_iff.2 (List.mem_append_right _ List.mem_cons_self), heq⟩

theorem Built.eq {items items' ret : List (List UInt8 × Dynamic D)} (h : Built d items' ret) (hperm : items'.Perm items)
    (hnodup : (items.map Prod.fst).Nodup) : Dynamic.eq d (.object items) (.object ret) = true := by
  have hkeys := h.keys.trans (hperm.map Prod.fst)
  have hlen : items.length = ret.length := by
    have hlen := hkeys.length_eq
    rw [List.length_map, List.length_map] at hlen
    exact hlen.symm
  have hitems : Dynamic.eqItems d items ret = true := Dynamic.eqItems_of fun p hp => by
    obtain ⟨w, hmem, heq⟩ := h.values p (hperm.mem_iff.2 hp)
    exact ⟨w, Dynamic.find_of_mem (hkeys.nodup_iff.2 hnodup) hmem, heq⟩
  rw [Dynamic.eq, hitems, Bool.and_true, beq_iff_eq]
  exact hlen

end Objects

/-! ### Reading -/

section RoundTrip

variable (d : Doubles D) (opts : SerializationOpts) (hash : HashOrder D)

def TooDeep {α : Type} (x : Except Error α) : Prop := ∃ line context, x = .error (.parse line context "recursion limit exceeded")

theorem TooDeep.bind {α β : Type} {x : Except Error α} (h : TooDeep x) (f : α → Except Error β) : TooDeep (x >>= f) := by
  obtain ⟨line, context, rfl⟩ := h
  exact ⟨line, context, rfl⟩

/-- The text of a value is read as one that is equal to it, at every level from its depth on. -/
def ReadsAs (v : Dynamic D) (out : List UInt8) : Prop :=
  ∀ n rest l, Ends rest →
    (v.depth ≤ n → ∃ w rest', parseValue d opts hash n ⟨out ++ rest, l⟩ = .ok (w, ⟨rest', l⟩) ∧ trim rest' = trim rest ∧
      Dynamic.eq d v w = true) ∧
    (n < v.depth → TooDeep (parseValue d opts hash n ⟨out ++ rest, l⟩))

variable {d opts hash}

theorem Starts.trim_append {out : List UInt8} (h : Starts out) (rest : List UInt8) : trim (out ++ rest) = out ++ rest := by
  obtain ⟨c, cs, rfl, hc⟩ := h
  exact trim_cons (startsValue_facts hc).1 _

theorem Starts.current_ne {out : List UInt8} (h : Starts out) {rest : List UInt8} {l : UInt32} :
    Input.current ⟨out ++ rest, l⟩ ≠ some 93 := by
  obtain ⟨c, cs, rfl, hc⟩ := h
  exact fun heq => (startsValue_facts hc).2.1 (Option.some.inj heq)

theorem ends_of {c : UInt8} {cs : List UInt8} (hc : c = 44 ∨ c = 93 ∨ c = 125 ∨ c = 10) : Ends (c :: cs) := by
  rintro _ ⟨⟩
  obtain rfl | rfl | rfl | rfl := hc <;> decide

theorem ends_newline (level : Option Nat) {c : UInt8} (hc : c = 93 ∨ c = 125) (rest : List UInt8) :
    Ends (newline level ++ ([c] ++ rest)) := by
  cases level with
  | none => exact ends_of (.inr (hc.imp_right .inl))
  | some level => exact ends_of (.inr (.inr (.inr rfl)))

theorem ends_tail (level : Option Nat) (outs : List (List UInt8)) {suffix : List UInt8} (h : Ends suffix) :
    Ends (tailText level outs ++ suffix) := by
  obtain - | ⟨out, outs⟩ := outs
  · exact h
  · exact ends_of (.inl rfl)

theorem trim_tail (level : Option Nat) (outs : List (List UInt8)) {suffix : List UInt8} :
    trim (tailText level outs ++ suffix) =
      match outs with
      | [] => trim suffix
      | out :: outs => 44 :: (newline level ++ (out ++ (tailText level outs ++ suffix))) := by
  obtain - | ⟨out, outs⟩ := outs
  · rfl
  · rw [tailText, List.flatMap_cons, List.cons_append, List.cons_append, trim_cons rfl, List.append_assoc, List.append_assoc]
    rfl

section Array

variable {value : Input → Except Error (Dynamic D × Input)} {fuel : Nat} {l : UInt32} {ret : List (Dynamic D)} {s : Input}
  {w : Dynamic D}
  {rest t : List UInt8}

theorem arrayLoop_eq (hs : s.current ≠ some 93) (hvalue : value s = .ok (w, ⟨rest, l⟩)) :
    arrayLoop opts value (fuel + 1) ret s =
      if Input.current ⟨trim rest, l⟩ = some 44 then arrayLoop opts value fuel (ret ++ [w]) (Input.next ⟨trim rest, l⟩).skipWhitespace
      else Input.expect 93 ⟨trim rest, l⟩ >>= fun s => .ok (.array (ret ++ [w]), s) := by
  rw [arrayLoop, if_neg fun h => hs h.2, hvalue]
  rfl

theorem arrayLoop_next (hs : s.current ≠ some 93) (hvalue : value s = .ok (w, ⟨rest, l⟩)) (hrest : trim rest = 44 :: t) :
    arrayLoop opts value (fuel + 1) ret s = arrayLoop opts value fuel (ret ++ [w]) ⟨trim t, l⟩ := by
  rw [arrayLoop_eq hs hvalue, hrest]
  rfl

theorem arrayLoop_last (hs : s.current ≠ some 93) (hvalue : value s = .ok (w, ⟨rest, l⟩)) (hrest : trim rest = 93 :: t) :
    arrayLoop opts value (fuel + 1) ret s = .ok (.array (ret ++ [w]), ⟨t, l⟩) := by
  rw [arrayLoop_eq hs hvalue, hrest]
  rfl

theorem arrayLoop_error (hs : s.current ≠ some 93) (hvalue : TooDeep (value s)) : TooDeep (arrayLoop opts value (fuel + 1) ret s) := by
  rw [arrayLoop, if_neg fun h => hs h.2]
  exact hvalue.bind _

end Array

theorem arrayLoop_reads {n fuel : Nat} {l : UInt32} {level : Option Nat} {v : Dynamic D} {vs ret : List (Dynamic D)}
    {out suffix rest : List UInt8} {outs : List (List UInt8)} (hv : Starts out ∧ ReadsAs d opts hash v out)
    (hvs : List.Forall₂ (fun v out => Starts out ∧ ReadsAs d opts hash v out) vs outs) (hends : Ends suffix)
    (hsuffix : trim suffix = 93 :: rest) (hfuel : outs.length < fuel) :
    ((∀ u ∈ v :: vs, u.depth ≤ n) → ∃ ws, arrayLoop opts (parseValue d opts hash n) fuel ret
        ⟨out ++ (tailText level outs ++ suffix), l⟩ = .ok (.array (ret ++ ws), ⟨rest, l⟩) ∧ Dynamic.eqArrays d (v :: vs) ws = true) ∧
    ((∃ u ∈ v :: vs, n < u.depth) → TooDeep (arrayLoop opts (parseValue d opts hash n) fuel ret
        ⟨out ++ (tailText level outs ++ suffix), l⟩)) := by
  induction hvs generalizing v out fuel ret with
  | nil =>
    obtain ⟨hstarts, hreads⟩ := hv
    obtain ⟨fuel, rfl⟩ := Nat.exists_eq_add_of_lt hfuel
    have hs : Input.current ⟨out ++ (tailText level [] ++ suffix), l⟩ ≠ some 93 := hstarts.current_ne
    obtain ⟨hshallow, hdeep⟩ := hreads n (tailText level [] ++ suffix) l (ends_tail level [] hends)
    constructor
    · intro hdepth
      obtain ⟨w, rest', hvalue, hrest', heq⟩ := hshallow (hdepth v List.mem_cons_self)
      refine ⟨[w], arrayLoop_last hs hvalue (hrest'.trans hsuffix), ?_⟩
      rw [Dynamic.eqArrays, heq]
      rfl
    · rintro ⟨u, hu, hdepth⟩
      obtain rfl := List.mem_singleton.1 hu
      exact arrayLoop_error hs (hdeep hdepth)
  | @cons u out₂ us outs hu _ ih =>
    obtain ⟨hstarts, hreads⟩ := hv
    obtain ⟨fuel, rfl⟩ := Nat.exists_eq_add_of_lt (Nat.lt_of_le_of_lt (Nat.zero_le _) hfuel)
    have hs : Input.current ⟨out ++ (tailText level (out₂ :: outs) ++ suffix), l⟩ ≠ some 93 := hstarts.current_ne
    obtain ⟨hshallow, hdeep⟩ := hreads n (tailText level (out₂ :: outs) ++ suffix) l (ends_tail level _ hends)
    have hnext (w : Dynamic D) (rest' : List UInt8) (hrest' : trim rest' = trim (tailText level (out₂ :: outs) ++ suffix)) :
        ∃ t, trim rest' = 44 :: t ∧ trim t = out₂ ++ (tailText level outs ++ suffix) :=
      ⟨_, hrest'.trans (trim_tail level _), (trim_newline level _).trans (hu.1.trim_append _)⟩
    rw [List.length_cons] at hfuel
    constructor
    · intro hdepth
      obtain ⟨hdepth, hdepths⟩ := List.forall_mem_cons.1 hdepth
      obtain ⟨w, rest', hvalue, hrest', heq⟩ := hshallow hdepth
      obtain ⟨t, ht, htrim⟩ := hnext w rest' hrest'
      have hrest : ∃ ws, arrayLoop opts (parseValue d opts hash n) (0 + fuel) (ret ++ [w]) ⟨out₂ ++ (tailText level outs ++ suffix), l⟩ =
          .ok (.array (ret ++ [w] ++ ws), ⟨rest, l⟩) ∧ Dynamic.eqArrays d (u :: us) ws = true := (ih hu (by omega)).1 hdepths
      obtain ⟨ws, hloop, heqs⟩ := hrest
      refine ⟨w :: ws, ?_, ?_⟩
      · rw [arrayLoop_next hs hvalue ht, htrim, hloop, List.append_assoc]
        rfl
      · rw [Dynamic.eqArrays, heq, heqs]
        rfl
    · intro hexists
      obtain hdepth | hdepth := Nat.lt_or_ge n v.depth
      · exact arrayLoop_error hs (hdeep hdepth)
      · obtain ⟨w, rest', hvalue, hrest', -⟩ := hshallow hdepth
        obtain ⟨t, ht, htrim⟩ := hnext w rest' hrest'
        rw [arrayLoop_next hs hvalue ht, htrim]
        refine (ih hu (by omega)).2 ?_
        obtain ⟨x, hx, hlt⟩ := hexists
        obtain rfl | hx := List.mem_cons.1 hx
        · exact absurd hlt (Nat.not_lt.2 hdepth)
        · exact ⟨x, hx, hlt⟩

/-- The text of an item, and what it is read as. -/
def ItemReadsAs (d : Doubles D) (opts : SerializationOpts) (hash : HashOrder D) (p : List UInt8 × Dynamic D) (out : List UInt8) : Prop :=
  ∃ key level value, out = 34 :: (key ++ [34]) ++ (mapColon level ++ value) ∧ Literal key p.1 ∧ key.count 10 = 0 ∧ Starts value ∧
    ReadsAs d opts hash p.2 value

theorem ItemReadsAs.starts {p : List UInt8 × Dynamic D} {out : List UInt8} (h : ItemReadsAs d opts hash p out) : Starts out := by
  obtain ⟨ktext, level, value, rfl, -⟩ := h
  exact ⟨34, _, rfl, rfl⟩

section Object

variable {value : Input → Except Error (Dynamic D × Input)} {fuel : Nat} {l : UInt32} {ret : List (List UInt8 × Dynamic D)}
  {w : Dynamic D} {level : Option Nat} {key ktext out rest t more : List UInt8}

theorem expect_colon (hstarts : Starts out) :
    ∃ s, (Input.skipWhitespace ⟨mapColon level ++ (out ++ more), l⟩).expect 58 = .ok s ∧ s.skipWhitespace = ⟨out ++ more, l⟩ := by
  have htrim := hstarts.trim_append more
  cases level with
  | none =>
    refine ⟨⟨out ++ more, l⟩, rfl, ?_⟩
    rw [skipWhitespace_eq, htrim]
  | some level =>
    refine ⟨⟨32 :: (out ++ more), l⟩, rfl, ?_⟩
    exact congrArg (Input.mk · l) htrim

theorem objectLoop_eq (hkey : Literal ktext key) (hline : ktext.count 10 = 0) (hstarts : Starts out) :
    objectLoop opts hash value (fuel + 1) ret ⟨34 :: (ktext ++ [34]) ++ (mapColon level ++ (out ++ more)), l⟩ =
      value ⟨out ++ more, l⟩ >>= fun r =>
        if r.2.skipWhitespace.current = some 44 then
          objectLoop opts hash value fuel (insert hash key r.1 ret) r.2.skipWhitespace.next.skipWhitespace
        else r.2.skipWhitespace.expect 125 >>= fun s => .ok (.object (insert hash key r.1 ret), s) := by
  have hcolon : ∃ s, (Input.skipWhitespace ⟨mapColon level ++ (out ++ more), l⟩).expect 58 = .ok s ∧ s.skipWhitespace = ⟨out ++ more, l⟩ :=
    expect_colon hstarts
  obtain ⟨s, hexpect, hs⟩ := hcolon
  have hcurrent : Input.current ⟨34 :: (ktext ++ [34]) ++ (mapColon level ++ (out ++ more)), l⟩ = some 34 := rfl
  rw [objectLoop, hcurrent, if_neg fun h => absurd h.2 (by decide), if_pos rfl, parseString_literal hkey hline, ← hs]
  show (Input.expect 58 (Input.skipWhitespace ⟨mapColon level ++ (out ++ more), l⟩) >>= fun s => _) = _
  rw [hexpect]
  rfl

theorem objectLoop_next (hkey : Literal ktext key) (hline : ktext.count 10 = 0) (hstarts : Starts out)
    (hvalue : value ⟨out ++ more, l⟩ = .ok (w, ⟨rest, l⟩)) (hrest : trim rest = 44 :: t) :
    objectLoop opts hash value (fuel + 1) ret ⟨34 :: (ktext ++ [34]) ++ (mapColon level ++ (out ++ more)), l⟩ =
      objectLoop opts hash value fuel (insert hash key w ret) ⟨trim t, l⟩ := by
  rw [objectLoop_eq hkey hline hstarts, hvalue]
  show (if Input.current ⟨trim rest, l⟩ = some 44 then _ else _) = _
  rw [hrest]
  show objectLoop opts hash value fuel _ (Input.skipWhitespace (Input.next ⟨trim rest, l⟩)) = _
  rw [hrest]
  rfl

theorem objectLoop_last (hkey : Literal ktext key) (hline : ktext.count 10 = 0) (hstarts : Starts out)
    (hvalue : value ⟨out ++ more, l⟩ = .ok (w, ⟨rest, l⟩)) (hrest : trim rest = 125 :: t) :
    objectLoop opts hash value (fuel + 1) ret ⟨34 :: (ktext ++ [34]) ++ (mapColon level ++ (out ++ more)), l⟩ =
      .ok (.object (insert hash key w ret), ⟨t, l⟩) := by
  rw [objectLoop_eq hkey hline hstarts, hvalue]
  show (if Input.current ⟨trim rest, l⟩ = some 44 then _ else (Input.expect 125 ⟨trim rest, l⟩ >>= fun s => _)) = _
  rw [hrest]
  rfl

theorem objectLoop_error (hkey : Literal ktext key) (hline : ktext.count 10 = 0) (hstarts : Starts out)
    (hvalue : TooDeep (value ⟨out ++ more, l⟩)) :
    TooDeep (objectLoop opts hash value (fuel + 1) ret ⟨34 :: (ktext ++ [34]) ++ (mapColon level ++ (out ++ more)), l⟩) := by
  rw [objectLoop_eq hkey hline hstarts]
  exact hvalue.bind _

end Object

theorem objectLoop_reads {n fuel : Nat} {l : UInt32} {level : Option Nat} {p : List UInt8 × Dynamic D}
    {done ps ret : List (List UInt8 × Dynamic D)}
    {out suffix rest : List UInt8} {outs : List (List UInt8)} (hp : ItemReadsAs d opts hash p out)
    (hps : List.Forall₂ (ItemReadsAs d opts hash) ps outs) (hends : Ends suffix) (hsuffix : trim suffix = 125 :: rest)
    (hfuel : outs.length < fuel) (hbuilt : Built d done ret) (hnodup : ((done ++ p :: ps).map Prod.fst).Nodup) :
    ((∀ q ∈ p :: ps, q.2.depth ≤ n) → ∃ ret', objectLoop opts hash (parseValue d opts hash n) fuel ret
        ⟨out ++ (tailText level outs ++ suffix), l⟩ = .ok (.object ret', ⟨rest, l⟩) ∧ Built d (done ++ p :: ps) ret') ∧
    ((∃ q ∈ p :: ps, n < q.2.depth) → TooDeep (objectLoop opts hash (parseValue d opts hash n) fuel ret
        ⟨out ++ (tailText level outs ++ suffix), l⟩)) := by
  induction hps generalizing p done out fuel ret with
  | nil =>
    obtain ⟨ktext, klevel, out, rfl, hkey, hline, hstarts, hreads⟩ := hp
    obtain ⟨fuel, rfl⟩ := Nat.exists_eq_add_of_lt hfuel
    obtain ⟨hshallow, hdeep⟩ := hreads n (tailText level [] ++ suffix) l (ends_tail level [] hends)
    have hnew : p.1 ∉ done.map Prod.fst := by
      rw [List.map_append, List.map_cons] at hnodup
      exact fun hmem => List.disjoint_of_nodup_append hnodup hmem List.mem_cons_self
    rw [List.append_assoc, List.append_assoc]
    constructor
    · intro hdepth
      obtain ⟨w, rest', hvalue, hrest', heq⟩ := hshallow (hdepth p List.mem_cons_self)
      exact ⟨_, objectLoop_last hkey hline hstarts hvalue (hrest'.trans hsuffix), hbuilt.insert hash hnew heq⟩
    · rintro ⟨q, hq, hdepth⟩
      obtain rfl := List.mem_singleton.1 hq
      exact objectLoop_error hkey hline hstarts (hdeep hdepth)
  | @cons q out₂ qs outs hq _ ih =>
    obtain ⟨ktext, klevel, out, rfl, hkey, hline, hstarts, hreads⟩ := hp
    obtain ⟨fuel, rfl⟩ := Nat.exists_eq_add_of_lt (Nat.lt_of_le_of_lt (Nat.zero_le _) hfuel)
    obtain ⟨hshallow, hdeep⟩ := hreads n (tailText level (out₂ :: outs) ++ suffix) l (ends_tail level _ hends)
    have hnew : p.1 ∉ done.map Prod.fst := by
      rw [List.map_append, List.map_cons] at hnodup
      exact fun hmem => List.disjoint_of_nodup_append hnodup hmem List.mem_cons_self
    have hnext (w : Dynamic D) (rest' : List UInt8) (hrest' : trim rest' = trim (tailText level (out₂ :: outs) ++ suffix)) :
        ∃ t, trim rest' = 44 :: t ∧ trim t = out₂ ++ (tailText level outs ++ suffix) :=
      ⟨_, hrest'.trans (trim_tail level _), (trim_newline level _).trans (hq.starts.trim_append _)⟩
    have hnodup' : ((done ++ [p] ++ q :: qs).map Prod.fst).Nodup := by rwa [List.append_assoc, List.singleton_append]
    rw [List.length_cons] at hfuel
    rw [List.append_assoc, List.append_assoc]
    constructor
    · intro hdepth
      obtain ⟨hdepth, hdepths⟩ := List.forall_mem_cons.1 hdepth
      obtain ⟨w, rest', hvalue, hrest', heq⟩ := hshallow hdepth
      obtain ⟨t, ht, htrim⟩ := hnext w rest' hrest'
      obtain ⟨ret', hloop, hbuilt'⟩ := (ih hq (show outs.length < 0 + fuel by omega) (hbuilt.insert hash hnew heq) hnodup').1 hdepths
      refine ⟨ret', ?_, ?_⟩
      · rw [objectLoop_next hkey hline hstarts hvalue ht, htrim]
        exact hloop
      · rwa [List.append_assoc, List.singleton_append] at hbuilt'
    · intro hexists
      obtain hdepth | hdepth := Nat.lt_or_ge n p.2.depth
      · exact objectLoop_error hkey hline hstarts (hdeep hdepth)
      · obtain ⟨w, rest', hvalue, hrest', heq⟩ := hshallow hdepth
        obtain ⟨t, ht, htrim⟩ := hnext w rest' hrest'
        rw [objectLoop_next hkey hline hstarts hvalue ht, htrim]
        refine (ih hq (show outs.length < 0 + fuel by omega) (hbuilt.insert hash hnew heq) hnodup').2 ?_
        obtain ⟨x, hx, hlt⟩ := hexists
        obtain rfl | hx := List.mem_cons.1 hx
        · exact absurd hlt (Nat.not_lt.2 hdepth)
        · exact ⟨x, hx, hlt⟩

theorem readsAs_scalar {v w : Dynamic D} {out : List UInt8} (hdepth : v.depth = 1) (heq : Dynamic.eq d v w = true)
    (h : ∀ n rest l, Ends rest →
      ∃ rest', parseValue d opts hash (n + 1) ⟨out ++ rest, l⟩ = .ok (w, ⟨rest', l⟩) ∧ trim rest' = trim rest) :
    ReadsAs d opts hash v out := by
  intro n rest l hrest
  rw [hdepth]
  constructor
  · intro hn
    obtain ⟨n, rfl⟩ := Nat.exists_eq_add_of_le' hn
    obtain ⟨rest', hparse, htrim⟩ := h n rest l hrest
    exact ⟨w, rest', hparse, htrim, heq⟩
  · intro hn
    obtain rfl := Nat.lt_one_iff.1 hn
    exact ⟨_, _, rfl⟩

theorem parseValue_number {n : Nat} {l : UInt32} {c : UInt8} {cs : List UInt8} (hc : c = 45 ∨ isdigit c = true) :
    parseValue d opts hash (n + 1) ⟨c :: cs, l⟩ = parseNumber d opts ⟨c :: cs, l⟩ := by
  have hstarts : startsValue c = true := by
    obtain rfl | hdigit := hc
    · rfl
    · rw [startsValue, hdigit]
      rfl
  have hne : c ≠ 91 ∧ c ≠ 123 ∧ c ≠ 34 := by
    refine ⟨?_, ?_, ?_⟩ <;> rintro rfl <;> exact absurd hc (by decide)
  unfold parseValue
  dsimp only
  rw [skipWhitespace_eq, trim_cons (startsValue_facts hstarts).1]
  split
  · next h => exact absurd (Option.some.inj h) hne.1
  · next h => exact absurd (Option.some.inj h) hne.2.1
  · next h => exact absurd (Option.some.inj h) hne.2.2
  · exact if_pos (hc.imp (congrArg some) id)

theorem parseArray_eq {value : Input → Except Error (Dynamic D × Input)} {l : UInt32} {level : Option Nat} {out t : List UInt8}
    (hstarts : Starts out) : parseArray opts value ⟨91 :: (newline level ++ (out ++ t)), l⟩ =
      arrayLoop opts value ((out ++ t).length + 1) [] ⟨out ++ t, l⟩ := by
  have htrim : trim (newline level ++ (out ++ t)) = out ++ t := (trim_newline level _).trans (hstarts.trim_append t)
  have hskip : Input.skipWhitespace (Input.next ⟨91 :: (newline level ++ (out ++ t)), l⟩) = ⟨out ++ t, l⟩ :=
    congrArg (Input.mk · l) htrim
  rw [parseArray, hskip]
  exact if_neg hstarts.current_ne

theorem parseObject_eq {value : Input → Except Error (Dynamic D × Input)} {l : UInt32} {level : Option Nat} {out t : List UInt8}
    (hstarts : Starts out) : parseObject opts hash value ⟨123 :: (newline level ++ (out ++ t)), l⟩ =
      objectLoop opts hash value ((out ++ t).length + 1) [] ⟨out ++ t, l⟩ := by
  have htrim : trim (newline level ++ (out ++ t)) = out ++ t := (trim_newline level _).trans (hstarts.trim_append t)
  have hskip : Input.skipWhitespace (Input.next ⟨123 :: (newline level ++ (out ++ t)), l⟩) = ⟨out ++ t, l⟩ :=
    congrArg (Input.mk · l) htrim
  obtain ⟨c, cs, rfl, hc⟩ := hstarts
  rw [parseObject, hskip]
  exact if_neg fun heq => (startsValue_facts hc).2.2.1 (Option.some.inj heq)

theorem tail_fuel (level : Option Nat) (out suffix : List UInt8) (outs : List (List UInt8)) :
    outs.length < (out ++ (tailText level outs ++ suffix)).length + 1 := by
  have hlen := length_tailText level outs
  rw [List.length_append, List.length_append]
  omega

theorem exists_lt_of_not {α : Type} {xs : List α} {f : α → Nat} {n : Nat} (h : ¬∀ x ∈ xs, f x ≤ n) : ∃ x ∈ xs, n < f x := by
  by_contra hnone
  exact h fun x hx => Nat.le_of_not_lt fun hlt => hnone ⟨x, hx, hlt⟩

theorem readsAs_array {level : Option Nat} {vs : List (Dynamic D)} {outs : List (List UInt8)}
    (h : List.Forall₂ (fun v out => Starts out ∧ ReadsAs d opts hash v out) vs outs) :
    ReadsAs d opts hash (.array vs) (layout level 91 93 outs) := by
  intro n rest l hrest
  obtain - | n := n
  · exact ⟨fun hn => absurd hn (Nat.not_le.2 (Dynamic.depth_pos _)), fun _ => ⟨_, _, rfl⟩⟩
  · rw [Dynamic.depth, Nat.add_le_add_iff_right, Nat.add_lt_add_iff_right]
    cases h with
    | nil => exact ⟨fun _ => ⟨.array [], rest, rfl, rfl, rfl⟩, fun hn => absurd hn (Nat.not_lt_zero _)⟩
    | @cons v out vs outs hv hvs =>
      have hlayout : layout level 91 93 (out :: outs) ++ rest = 91 :: (newline (level.map (· + 1)) ++
          (out ++ (tailText (level.map (· + 1)) outs ++ (newline level ++ ([93] ++ rest))))) := by
        simp [layout]
      have hparse : parseValue d opts hash (n + 1) ⟨layout level 91 93 (out :: outs) ++ rest, l⟩ =
          parseArray opts (parseValue d opts hash n) ⟨layout level 91 93 (out :: outs) ++ rest, l⟩ := rfl
      have hends : Ends (newline level ++ ([93] ++ rest)) := ends_newline level (.inl rfl) rest
      have hsuffix : trim (newline level ++ ([93] ++ rest)) = 93 :: rest := trim_newline level _
      obtain ⟨hshallow, hdeep⟩ := arrayLoop_reads (n := n) (l := l) hv hvs hends hsuffix
        (tail_fuel (level.map (· + 1)) out (newline level ++ ([93] ++ rest)) outs)
      rw [hparse, hlayout, parseArray_eq hv.1]
      constructor
      · intro hdepth
        obtain ⟨ws, hloop, heq⟩ := hshallow (Dynamic.depths_le.1 hdepth)
        exact ⟨.array ws, rest, hloop, rfl, heq⟩
      · intro hdepth
        exact hdeep (exists_lt_of_not fun hall => absurd (Dynamic.depths_le.2 hall) (Nat.not_le.2 hdepth))

theorem readsAs_object {level : Option Nat} {items ps : List (List UInt8 × Dynamic D)} {outs : List (List UInt8)}
    (hperm : ps.Perm items) (hnodup : (items.map Prod.fst).Nodup) (h : List.Forall₂ (ItemReadsAs d opts hash) ps outs) :
    ReadsAs d opts hash (.object items) (layout level 123 125 outs) := by
  intro n rest l hrest
  have hdepths : Dynamic.itemDepths items ≤ n - 1 ↔ ∀ p ∈ ps, p.2.depth ≤ n - 1 := by
    rw [Dynamic.itemDepths_le]
    exact forall_congr' fun p => imp_congr_left hperm.mem_iff.symm
  obtain - | n := n
  · exact ⟨fun hn => absurd hn (Nat.not_le.2 (Dynamic.depth_pos _)), fun _ => ⟨_, _, rfl⟩⟩
  · rw [Nat.add_sub_cancel] at hdepths
    rw [Dynamic.depth, Nat.add_le_add_iff_right, Nat.add_lt_add_iff_right]
    cases h with
    | nil =>
      obtain rfl := hperm.nil_eq
      exact ⟨fun _ => ⟨.object [], rest, rfl, rfl, rfl⟩, fun hn => absurd hn (Nat.not_lt_zero _)⟩
    | @cons p out ps outs hp hps =>
      have hlayout : layout level 123 125 (out :: outs) ++ rest = 123 :: (newline (level.map (· + 1)) ++
          (out ++ (tailText (level.map (· + 1)) outs ++ (newline level ++ ([125] ++ rest))))) := by
        simp [layout]
      have hparse : parseValue d opts hash (n + 1) ⟨layout level 123 125 (out :: outs) ++ rest, l⟩ =
          parseObject opts hash (parseValue d opts hash n) ⟨layout level 123 125 (out :: outs) ++ rest, l⟩ := rfl
      have hends : Ends (newline level ++ ([125] ++ rest)) := ends_newline level (.inr rfl) rest
      have hsuffix : trim (newline level ++ ([125] ++ rest)) = 125 :: rest := trim_newline level _
      have hempty : Built d [] [] := ⟨.nil, by simp⟩
      have hnodup' : (([] ++ p :: ps).map Prod.fst).Nodup := (hperm.map Prod.fst).nodup_iff.2 hnodup
      obtain ⟨hshallow, hdeep⟩ := objectLoop_reads (n := n) (l := l) hp hps hends hsuffix
        (tail_fuel (level.map (· + 1)) out (newline level ++ ([125] ++ rest)) outs) hempty hnodup'
      rw [hparse, hlayout, parseObject_eq hp.starts]
      constructor
      · intro hdepth
        obtain ⟨ret, hloop, hbuilt⟩ := hshallow (hdepths.1 hdepth)
        exact ⟨.object ret, rest, hloop, rfl, hbuilt.eq hperm hnodup⟩
      · intro hdepth
        exact hdeep (exists_lt_of_not fun hall => absurd (hdepths.2 hall) (Nat.not_le.2 hdepth))

end RoundTrip

/-! ### Printing -/

section Printing

variable {d : Doubles D} {popts opts : SerializationOpts} {hash : HashOrder D}

theorem printValues_eq (level : Option Nat) (vs : List (Dynamic D)) : printValues d popts level vs = vs.map (print d popts level) := by
  induction vs with
  | nil => rfl
  | cons v vs ih => rw [printValues, ih, List.map_cons]

theorem printItems_eq (level : Option Nat) (items : List (List UInt8 × Dynamic D)) :
    printItems d popts level items = items.map fun p => (p.1, print d popts level p.2) := by
  induction items with
  | nil => rfl
  | cons p items ih => rw [printItems, ih, List.map_cons]

theorem printObject_ok {level : Option Nat} {items : List (List UInt8 × Dynamic D)} {out : List UInt8}
    (h : printObject popts level (printItems d popts (level.map (· + 1)) items) = .ok out) :
    ∃ ps outs, ps.Perm items ∧ out = layout level 123 125 outs ∧
      List.Forall₂ (fun p out => printKV popts level p.1 (print d popts (level.map (· + 1)) p.2) = .ok out) ps outs := by
  have hsplit : ∃ ps : List (List UInt8 × Dynamic D), ps.Perm items ∧
      enclosed level 123 125 (ps.map fun p => printKV popts level p.1 (print d popts (level.map (· + 1)) p.2)) = .ok out := by
    rw [printItems_eq, printObject] at h
    split_ifs at h with hsort
    · refine ⟨items.mergeSort fun p q => lexLe (p.1.map UInt8.toNat) (q.1.map UInt8.toNat), List.mergeSort_perm _ _, ?_⟩
      have hsorted : (items.mergeSort fun p q => lexLe (p.1.map UInt8.toNat) (q.1.map UInt8.toNat)).map
          (fun p => (p.1, print d popts (level.map (· + 1)) p.2)) =
          (items.map fun p => (p.1, print d popts (level.map (· + 1)) p.2)).mergeSort
            fun p q => lexLe (p.1.map UInt8.toNat) (q.1.map UInt8.toNat) := List.map_mergeSort fun _ _ _ _ => rfl
      rw [← h, ← hsorted, List.map_map]
      rfl
    · refine ⟨items, .refl _, ?_⟩
      rw [← h, List.map_map]
      rfl
  obtain ⟨ps, hperm, hprint⟩ := hsplit
  obtain ⟨outs, htexts, hout⟩ := enclosed_ok level hprint
  exact ⟨ps, outs, hperm, hout, forall₂_of_map htexts⟩

theorem starts_layout {level : Option Nat} {first last : UInt8} (hfirst : startsValue first = true) (outs : List (List UInt8)) :
    Starts (layout level first last outs) := by
  cases outs with
  | nil => exact ⟨first, _, rfl, hfirst⟩
  | cons out outs => exact ⟨first, _, rfl, hfirst⟩

theorem shown_eq (hskip : popts.skipInvalidUtf8 = false) (s : List UInt8) : shown popts s = s := by
  rw [shown, hskip, if_neg Bool.false_ne_true]

theorem readsAs_print (hskip : popts.skipInvalidUtf8 = false) (hdoubles : opts.doubleFallback = false)
    (hstrings : opts.parseNumbersAsStrings = false) (v : Dynamic D) :
    v.Exact → ∀ level out, print d popts level v = .ok out → Starts out ∧ ReadsAs d opts hash v out := by
  induction v using Dynamic.induction with
  | nullt =>
    rintro - level out ⟨⟩
    exact ⟨⟨_, _, rfl, rfl⟩, readsAs_scalar rfl rfl fun n rest l _ => ⟨rest, rfl, rfl⟩⟩
  | bool b =>
    rintro - level out ⟨⟩
    cases b with
    | false => exact ⟨⟨_, _, rfl, rfl⟩, readsAs_scalar rfl rfl fun n rest l _ => ⟨rest, rfl, rfl⟩⟩
    | true => exact ⟨⟨_, _, rfl, rfl⟩, readsAs_scalar rfl rfl fun n rest l _ => ⟨rest, rfl, rfl⟩⟩
  | int64 i =>
    rintro - level out h
    obtain rfl := printInt_ok d popts h
    have heq : Dynamic.eq d (.int64 i) (.int64 i) = true := beq_self_eq_true i
    refine ⟨starts_text _, readsAs_scalar rfl heq fun n rest l hrest => ⟨trim rest, ?_, trim_trim rest⟩⟩
    have hnumber := parseNumber_text d opts i hrest l hdoubles hstrings
    obtain ⟨- | ⟨k, ds⟩, hne, hlt, ⟨-, htext⟩ | ⟨-, htext⟩⟩ := text_cases i.toInt
    · exact absurd rfl hne
    · exact absurd rfl hne
    · rw [htext] at hnumber ⊢
      exact (parseValue_number (.inl rfl)).trans hnumber
    · rw [htext] at hnumber ⊢
      exact (parseValue_number (.inr (isdigit_digit (hlt k List.mem_cons_self)))).trans hnumber
  | double x => exact fun h => absurd h id
  | string s =>
    rintro - level out h
    obtain ⟨text, rfl, hliteral, hline⟩ := escapeString_ok h
    rw [shown_eq hskip] at hliteral
    have heq : Dynamic.eq d (.string s) (.string s) = true := beq_self_eq_true s
    refine ⟨⟨34, _, rfl, rfl⟩, readsAs_scalar rfl heq fun n rest l _ => ⟨rest, ?_, rfl⟩⟩
    show (parseString ⟨34 :: (text ++ [34]) ++ rest, l⟩ >>= fun r => Except.ok (Dynamic.string r.1, r.2)) = _
    rw [parseString_literal hliteral hline]
    rfl
  | array vs ih =>
    intro hexact level out h
    have hexact := Dynamic.allValid_iff.1 hexact
    rw [print, printValues_eq] at h
    obtain ⟨outs, htexts, rfl⟩ := enclosed_ok level h
    have hprinted := forall₂_of_map htexts
    refine ⟨starts_layout rfl outs, readsAs_array ?_⟩
    refine ((List.forall₂_and_left _ _).2 ⟨fun v hv => hv, hprinted⟩).imp ?_
    rintro v out ⟨hv, hout⟩
    exact ih v hv (hexact v hv) _ out hout
  | object items ih =>
    rintro ⟨hnodup, hexact⟩ level out h
    have hexact := Dynamic.itemsValid_iff.1 hexact
    obtain ⟨ps, outs, hperm, rfl, hprinted⟩ := printObject_ok h
    refine ⟨starts_layout rfl outs, readsAs_object hperm hnodup ?_⟩
    refine ((List.forall₂_and_left _ _).2 ⟨fun p hp => hp, hprinted⟩).imp ?_
    rintro p out ⟨hp, hout⟩
    have hmem : p ∈ items := hperm.mem_iff.1 hp
    obtain ⟨key, hkey, hout⟩ := bind_eq_ok.1 hout
    obtain ⟨value, hvalue, hout⟩ := bind_eq_ok.1 hout
    cases hout
    obtain ⟨text, rfl, hliteral, hline⟩ := escapeString_ok hkey
    rw [shown_eq hskip] at hliteral
    obtain ⟨hstarts, hreads⟩ := ih p hmem (hexact p hmem) _ value hvalue
    exact ⟨text, level, value, by rw [List.append_assoc], hliteral, hline, hstarts, hreads⟩

/-- **What is printed is read back**, for every way to print and every order of the hash tables, exactly when
its depth is within the recursion limit. -/
theorem parseJson_serialize (hskip : popts.skipInvalidUtf8 = false) (hdoubles : opts.doubleFallback = false)
    (hstrings : opts.parseNumbersAsStrings = false) {v : Dynamic D} (hexact : v.Exact) {out : List UInt8}
    (h : serialize d popts v = .ok out) :
    (v.depth ≤ opts.recursionLimit + 1 → ∃ w, parseJson d opts hash out = .ok w ∧ Dynamic.eq d v w = true) ∧
    (opts.recursionLimit + 1 < v.depth → TooDeep (parseJson d opts hash out)) := by
  have hprinted : Starts out ∧ ReadsAs d opts hash v out := readsAs_print hskip hdoubles hstrings v hexact _ out h
  obtain ⟨hshallow, hdeep⟩ := hprinted.2 (opts.recursionLimit + 1) [] 0 (by simp [Ends])
  rw [List.append_nil] at hshallow hdeep
  constructor
  · intro hdepth
    obtain ⟨w, rest, hparse, htrim, heq⟩ := hshallow hdepth
    refine ⟨w, bind_eq_ok.2 ⟨_, hparse, ?_⟩, heq⟩
    have hskip : Input.skipWhitespace ⟨rest, 0⟩ = ⟨[], 0⟩ := congrArg (Input.mk · 0) htrim
    dsimp only
    rw [hskip]
    rfl
  · exact fun hdepth => (hdeep hdepth).bind _

/-- A table that is iterated from its newest item on. -/
def newestFirst {D : Type} : HashOrder D := ⟨List.reverse, List.reverse_perm⟩

/-- The value of `{"a":[-5,null],"b":"\n"}`. -/
def sample : Dynamic Int := .object [([97], .array [.int64 (-5), .nullt]), ([98], .string [10])]

theorem exact_sample : sample.Exact := ⟨by decide, ⟨trivial, trivial, trivial⟩, trivial, trivial⟩

theorem serialize_sample : serialize wholeDoubles {} sample =
    .ok [123, 34, 97, 34, 58, 91, 45, 53, 44, 110, 117, 108, 108, 93, 44, 34, 98, 34, 58, 34, 92, 110, 34, 125] := by
  decide +kernel

theorem parseJson_serialize_sample : ∃ w, parseJson wholeDoubles {} newestFirst
    [123, 34, 97, 34, 58, 91, 45, 53, 44, 110, 117, 108, 108, 93, 44, 34, 98, 34, 58, 34, 92, 110, 34, 125] = .ok w ∧
    Dynamic.eq wholeDoubles sample w = true :=
  (parseJson_serialize rfl rfl rfl exact_sample serialize_sample).1 (by decide)

end Printing

end Raster.Json
