import Raster.Json.RoundTrip

/-!
# What the parser does with any text

`parseJson` ends on every text, since each turn of its loops reads something, and what it returns is a value whose objects have distinct
keys and which is no deeper than the recursion limit allows.
-/

namespace Raster.Json

open Conv

/-! ### Strings and numbers -/

/-- A loop has not run out of fuel. -/
def Finishes {α : Type} (x : Except Error α) : Prop := x ≠ .error .stuck

theorem finishes_ok {α : Type} (a : α) : Finishes (.ok a : Except Error α) := by
  rintro ⟨⟩

theorem finishes_error {α : Type} (s : Input) (what : String) : Finishes (s.error what : Except Error α) := by
  rintro ⟨⟩

theorem Finishes.bind {α β : Type} {x : Except Error α} {f : α → Except Error β} (hx : Finishes x)
    (hf : ∀ a, x = .ok a → Finishes (f a)) : Finishes (x >>= f) := by
  cases x with
  | error e => exact fun h => hx (by cases h; rfl)
  | ok a => exact hf a rfl

theorem hexVal_finishes (s : Input) : Finishes (hexVal s) := by
  unfold hexVal
  split
  · exact finishes_ok _
  · exact finishes_error _ _

theorem readHex_finishes (s : Input) : Finishes (readHex s) := by
  unfold readHex
  split_ifs
  · exact finishes_error _ _
  · refine (hexVal_finishes _).bind fun _ _ => (hexVal_finishes _).bind fun _ _ => ?_
    exact (hexVal_finishes _).bind fun _ _ => (hexVal_finishes _).bind fun _ _ => finishes_ok _

theorem decodeUnicodeEscape_finishes (s : Input) : Finishes (decodeUnicodeEscape s) := by
  unfold decodeUnicodeEscape
  refine (readHex_finishes s).bind fun r _ => ?_
  dsimp only
  split_ifs
  · split
    · exact finishes_error _ _
    · refine (readHex_finishes _).bind fun r _ => ?_
      split_ifs
      · exact finishes_ok _
      · exact finishes_error _ _
  · exact finishes_error _ _
  · exact finishes_ok _

theorem parseEscape_finishes (s : Input) : Finishes (parseEscape s) := by
  unfold parseEscape
  split
  · exact decodeUnicodeEscape_finishes _
  · split
    · exact finishes_ok _
    · exact finishes_error _ _
  · exact finishes_error _ _

theorem stringLoop_finishes {fuel : Nat} {ret range : List UInt8} {l : UInt32} (hfuel : range.length < fuel) :
    Finishes (stringLoop fuel ret ⟨range, l⟩) := by
  induction hn : range.length using Nat.strong_induction_on generalizing fuel range l ret with
  | _ n ih =>
    subst hn
    obtain - | fuel := fuel
    · exact absurd hfuel (Nat.not_lt_zero _)
    obtain - | ⟨c, range⟩ := range
    · exact finishes_error _ _
    have hless : range.length < (c :: range).length := Nat.lt_succ_self _
    by_cases hc : isPlain c = true
    · rw [stringLoop_plain _ _ _ _ hc]
      exact ih _ hless (Nat.lt_of_succ_lt hfuel) rfl
    · by_cases hquote : c = 34
      · rw [hquote, stringLoop_quote]
        exact finishes_ok _
      · obtain rfl : c = 92 := by
          by_contra hslash
          exact hc (isPlain_iff.2 ⟨hquote, hslash⟩)
        rw [stringLoop_slash]
        refine (parseEscape_finishes _).bind ?_
        rintro ⟨out, s⟩ hescape
        obtain ⟨e, rest, he, hrange, rfl⟩ := parseEscape_iff.1 hescape
        obtain rfl : range = e ++ rest := hrange
        have hshort : rest.length ≤ (e ++ rest).length := by
          rw [List.length_append]
          exact Nat.le_add_left _ _
        exact ih _ (Nat.lt_of_le_of_lt hshort hless) (Nat.lt_of_le_of_lt hshort (Nat.lt_of_succ_lt_succ hfuel)) rfl

theorem parseString_spec {s : Input} (hs : s.current = some 34) :
    Finishes (parseString s) ∧ ∀ out s', parseString s = .ok (out, s') → s'.range.length < s.range.length := by
  obtain ⟨range, l⟩ := s
  obtain ⟨range, rfl⟩ := List.head?_eq_some_iff.1 hs
  have hfuel : range.length < (34 :: range).length := Nat.lt_succ_self _
  refine ⟨stringLoop_finishes hfuel, fun out s' h => ?_⟩
  obtain ⟨text, value, rest, -, hrange, -, rfl⟩ := (stringLoop_iff hfuel).1 h
  rw [show range = text ++ 34 :: rest from hrange]
  simp only [List.length_cons, List.length_append]
  omega

theorem length_dropWhile_le (p : UInt8 → Bool) (s : List UInt8) : (s.dropWhile p).length ≤ s.length :=
  (List.dropWhile_sublist p).length_le

theorem skipWhitespace_le (s : Input) : s.skipWhitespace.range.length ≤ s.range.length := length_dropWhile_le _ _

theorem skipDigits_le (s : Input) : s.skipDigits.2.range.length ≤ s.range.length := length_dropWhile_le _ _

theorem next_le (s : Input) : s.next.range.length ≤ s.range.length := by
  rw [Input.next, List.length_tail]
  exact Nat.sub_le _ _

theorem skipMinusAndDigits_le (s : Input) : s.skipMinusAndDigits.2.range.length ≤ s.range.length := by
  obtain ⟨range, l⟩ := s
  unfold Input.skipMinusAndDigits
  split
  · next cs hrange =>
    obtain rfl : range = 45 :: cs := hrange
    exact Nat.le_succ_of_le (skipDigits_le _)
  · exact skipDigits_le _

theorem skipSign_le (s : Input) : (skipSign s).2.range.length ≤ s.range.length := by
  unfold skipSign
  split_ifs
  · exact next_le s
  · exact Nat.le_refl _

theorem skipExponent_le (s : Input) : (skipExponent s).2.range.length ≤ s.range.length := by
  unfold skipExponent
  split_ifs
  · exact (skipDigits_le _).trans ((skipSign_le _).trans (next_le s))
  · exact Nat.le_refl _

theorem skipFraction_le (s : Input) : (skipFraction s).2.range.length ≤ s.range.length := by
  unfold skipFraction
  split_ifs
  · exact skipExponent_le s
  · exact (skipExponent_le _).trans ((skipDigits_le _).trans (next_le s))

theorem consume_le {text : List UInt8} {s s' : Input} (h : s.consume text = some s') : s'.range.length ≤ s.range.length := by
  obtain ⟨rest, hrange, rfl⟩ := consume_iff.1 h
  rw [hrange, List.length_append]
  exact Nat.le_add_left _ _

/-! ### Values -/

section Values

variable {D : Type} {d : Doubles D} {opts : SerializationOpts} {hash : HashOrder D}

/-- A value as it may be returned: its objects have distinct keys, and it is at most so deep. -/
def Fits (levels : Nat) (v : Dynamic D) : Prop := v.Valid (fun _ => True) ∧ v.depth ≤ levels

/-- The parser ends, and what it returns is as it may be and leaves no more input than there was. -/
structure Accepts (length levels : Nat) (x : Except Error (Dynamic D × Input)) : Prop where
  finishes : Finishes x
  fits : ∀ v s', x = .ok (v, s') → Fits levels v ∧ s'.range.length ≤ length

theorem Accepts.ok {length levels : Nat} {v : Dynamic D} {s : Input} (hv : Fits levels v) (hs : s.range.length ≤ length) :
    Accepts length levels (.ok (v, s)) := by
  refine ⟨finishes_ok _, ?_⟩
  rintro _ _ ⟨⟩
  exact ⟨hv, hs⟩

theorem Accepts.error {length levels : Nat} (s : Input) (what : String) : Accepts (D := D) length levels (s.error what) := by
  refine ⟨finishes_error s what, ?_⟩
  rintro _ _ ⟨⟩

theorem Accepts.bind {α : Type} {length levels : Nat} {x : Except Error α} {f : α → Except Error (Dynamic D × Input)} (hx : Finishes x)
    (hf : ∀ a, x = .ok a → Accepts length levels (f a)) : Accepts length levels (x >>= f) := by
  refine ⟨hx.bind fun a ha => (hf a ha).finishes, fun v s' h => ?_⟩
  obtain ⟨a, ha, h⟩ := bind_eq_ok.1 h
  exact (hf a ha).fits v s' h

theorem Accepts.mono {length length' levels levels' : Nat} {x : Except Error (Dynamic D × Input)} (h : Accepts length levels x)
    (hlength : length ≤ length') (hlevels : levels ≤ levels') : Accepts length' levels' x := by
  refine ⟨h.finishes, fun v s' hx => ?_⟩
  obtain ⟨⟨hvalid, hdepth⟩, hle⟩ := h.fits v s' hx
  exact ⟨⟨hvalid, hdepth.trans hlevels⟩, hle.trans hlength⟩

theorem ofRange_finishes {α : Type} (x : Except RangeError α) : Finishes (ofRange x) := by
  cases x <;> rintro ⟨⟩

theorem expect_spec (c : UInt8) (s : Input) :
    Finishes (s.expect c) ∧ ∀ s', s.expect c = .ok s' → s'.range.length ≤ s.range.length := by
  unfold Input.expect
  split_ifs
  · refine ⟨finishes_ok _, ?_⟩
    rintro _ ⟨⟩
    exact next_le s
  · exact ⟨finishes_error _ _, by rintro _ ⟨⟩⟩

theorem parseNumber_accepts (s : Input) : Accepts s.range.length 1 (parseNumber d opts s) := by
  have hscalar {v : Dynamic D} (hv : v.Valid fun _ => True) (hdepth : v.depth = 1) : Fits 1 v := ⟨hv, hdepth.le⟩
  have hintegral := skipMinusAndDigits_le s
  unfold parseNumber
  dsimp only
  split
  · next s' hconsume =>
    have hs' : s.consume (45 :: infinityText) = some s' := by
      split_ifs at hconsume
      exact hconsume
    refine .ok ?_ (consume_le hs')
    split_ifs
    · exact hscalar trivial rfl
    · exact hscalar trivial rfl
  · split_ifs
    · exact .error _ _
    · exact .ok (hscalar trivial rfl) hintegral
    · exact .bind (ofRange_finishes _) fun _ _ => .ok (hscalar trivial rfl) ((skipWhitespace_le _).trans hintegral)
    · exact .bind (ofRange_finishes _) fun _ _ => .ok (hscalar trivial rfl) ((skipWhitespace_le _).trans hintegral)
    · exact .ok (hscalar trivial rfl) ((skipFraction_le _).trans hintegral)
    · exact .bind (ofRange_finishes _) fun _ _ => .ok (hscalar trivial rfl) ((skipFraction_le _).trans hintegral)

theorem parseWord_accepts (s : Input) : Accepts s.range.length 1 (parseWord d opts s) := by
  have hscalar {v : Dynamic D} (hv : v.Valid fun _ => True) (hdepth : v.depth = 1) : Fits 1 v := ⟨hv, hdepth.le⟩
  unfold parseWord
  repeat' split
  · next h => exact .ok (hscalar trivial rfl) (consume_le h)
  · next h => exact .ok (hscalar trivial rfl) (consume_le h)
  · next h => exact .ok (hscalar trivial rfl) (consume_le h)
  · next h _ => exact .ok (hscalar trivial rfl) (consume_le h)
  · next h _ => exact .ok (hscalar trivial rfl) (consume_le h)
  · next h _ => exact .ok (hscalar trivial rfl) (consume_le h)
  · next h _ => exact .ok (hscalar trivial rfl) (consume_le h)
  · exact .error _ _

/-! ### Arrays and objects -/

variable {value : Input → Except Error (Dynamic D × Input)} {levels : Nat}

theorem afterValue_le {s : Input} (hs : s.skipWhitespace.current = some 44) :
    s.skipWhitespace.next.skipWhitespace.range.length < s.range.length := by
  have hskip := skipWhitespace_le s
  obtain ⟨cs, hrange⟩ := List.head?_eq_some_iff.1 hs
  have hnext : s.skipWhitespace.next.range.length < s.skipWhitespace.range.length := by
    rw [Input.next, hrange]
    exact Nat.lt_succ_self _
  exact (skipWhitespace_le _).trans_lt (hnext.trans_le hskip)

theorem arrayLoop_accepts (hvalue : ∀ s, Accepts s.range.length levels (value s)) {fuel : Nat} {ret : List (Dynamic D)} {s : Input}
    (hret : ∀ v ∈ ret, Fits levels v) (hfuel : s.range.length < fuel) :
    Accepts s.range.length (levels + 1) (arrayLoop opts value fuel ret s) := by
  have hfits {ret : List (Dynamic D)} (hret : ∀ v ∈ ret, Fits levels v) : Fits (levels + 1) (.array ret) :=
    ⟨Dynamic.allValid_iff.2 fun v hv => (hret v hv).1, Nat.succ_le_succ (Dynamic.depths_le.2 fun v hv => (hret v hv).2)⟩
  induction fuel generalizing ret s with
  | zero => exact absurd hfuel (Nat.not_lt_zero _)
  | succ fuel ih =>
    unfold arrayLoop
    split_ifs
    · exact .bind (expect_spec 93 s).1 fun s' hs' => .ok (hfits hret) ((expect_spec 93 s).2 s' hs')
    · refine .bind (hvalue s).finishes ?_
      rintro ⟨v, s'⟩ hs'
      obtain ⟨hv, hle⟩ := (hvalue s).fits v s' hs'
      have hret' : ∀ u ∈ ret ++ [v], Fits levels u := List.forall_mem_append.2 ⟨hret, List.forall_mem_singleton.2 hv⟩
      dsimp only
      split_ifs with hcomma
      · have hless := afterValue_le hcomma
        exact (ih hret' (by omega)).mono (by omega) (Nat.le_refl _)
      · refine .bind (expect_spec 93 _).1 fun s'' hs'' => .ok (hfits hret') ?_
        exact ((expect_spec 93 _).2 s'' hs'').trans ((skipWhitespace_le s').trans hle)

theorem find_none_iff {items : List (List UInt8 × Dynamic D)} {key : List UInt8} (h : Dynamic.find key items = none) :
    key ∉ items.map Prod.fst := by
  induction items with
  | nil => exact List.not_mem_nil
  | cons p items ih =>
    rw [Dynamic.find] at h
    split_ifs at h with hkey
    rw [List.map_cons, List.mem_cons, not_or]
    exact ⟨fun heq => hkey heq.symm, ih h⟩

/-- The items of an object as they may be. -/
def ItemsFit (levels : Nat) (items : List (List UInt8 × Dynamic D)) : Prop :=
  (items.map Prod.fst).Nodup ∧ ∀ p ∈ items, Fits levels p.2

theorem insert_fits {ret : List (List UInt8 × Dynamic D)} (hret : ItemsFit levels ret) {key : List UInt8} {v : Dynamic D}
    (hv : Fits levels v) : ItemsFit levels (insert hash key v ret) := by
  obtain ⟨hnodup, hfits⟩ := hret
  unfold insert
  split_ifs with hfind
  · have hkeys : (assign key v ret).map Prod.fst = ret.map Prod.fst := by
      rw [assign, List.map_map]
      refine List.map_congr_left fun p _ => ?_
      by_cases hp : p.1 = key
      · exact (congrArg Prod.fst (if_pos hp)).trans hp.symm
      · exact congrArg Prod.fst (if_neg hp)
    refine ⟨hkeys ▸ hnodup, fun p hp => ?_⟩
    obtain ⟨q, hq, rfl⟩ := List.mem_map.1 hp
    split_ifs
    · exact hv
    · exact hfits q hq
  · have hperm := hash.perm (ret ++ [(key, v)])
    have hnew := find_none_iff (Option.not_isSome_iff_eq_none.1 hfind)
    refine ⟨(hperm.map Prod.fst).nodup_iff.2 ?_, fun p hp => ?_⟩
    · rw [List.map_append, List.map_singleton]
      exact List.nodup_append_comm.1 (List.nodup_cons.2 ⟨hnew, hnodup⟩)
    · obtain hp | hp := List.mem_append.1 (hperm.mem_iff.1 hp)
      · exact hfits p hp
      · rw [List.mem_singleton.1 hp]
        exact hv

theorem objectLoop_accepts (hvalue : ∀ s, Accepts s.range.length levels (value s)) {fuel : Nat}
    {ret : List (List UInt8 × Dynamic D)} {s : Input} (hret : ItemsFit levels ret) (hfuel : s.range.length < fuel) :
    Accepts s.range.length (levels + 1) (objectLoop opts hash value fuel ret s) := by
  have hfits {ret : List (List UInt8 × Dynamic D)} (hret : ItemsFit levels ret) : Fits (levels + 1) (.object ret) :=
    ⟨⟨hret.1, Dynamic.itemsValid_iff.2 fun p hp => (hret.2 p hp).1⟩,
      Nat.succ_le_succ (Dynamic.itemDepths_le.2 fun p hp => (hret.2 p hp).2)⟩
  induction fuel generalizing ret s with
  | zero => exact absurd hfuel (Nat.not_lt_zero _)
  | succ fuel ih =>
    unfold objectLoop
    split_ifs with _ hquote
    · exact .bind (expect_spec 125 s).1 fun s' hs' => .ok (hfits hret) ((expect_spec 125 s).2 s' hs')
    · obtain ⟨hfinishes, hkey⟩ := parseString_spec hquote
      refine .bind hfinishes ?_
      rintro ⟨key, s₁⟩ hs₁
      have hle₁ := hkey key s₁ hs₁
      refine .bind (expect_spec 58 _).1 fun s₂ hs₂ => ?_
      have hle₂ := ((expect_spec 58 _).2 s₂ hs₂).trans (skipWhitespace_le s₁)
      refine .bind (hvalue _).finishes ?_
      rintro ⟨v, s₃⟩ hs₃
      obtain ⟨hv, hle₃⟩ := (hvalue _).fits v s₃ hs₃
      have hle₃ := hle₃.trans (skipWhitespace_le s₂)
      have hret' : ItemsFit levels (insert hash key v ret) := insert_fits hret hv
      dsimp only
      split_ifs with hcomma
      · have hless := afterValue_le hcomma
        exact (ih hret' (by omega)).mono (by omega) (Nat.le_refl _)
      · refine .bind (expect_spec 125 _).1 fun s₄ hs₄ => .ok (hfits hret') ?_
        have hle₄ := ((expect_spec 125 _).2 s₄ hs₄).trans (skipWhitespace_le s₃)
        omega
    · exact .error _ _

theorem parseArray_accepts (hvalue : ∀ s, Accepts s.range.length levels (value s)) (s : Input) :
    Accepts s.range.length (levels + 1) (parseArray opts value s) := by
  have hle := (skipWhitespace_le s.next).trans (next_le s)
  unfold parseArray
  dsimp only
  split_ifs
  · exact .ok ⟨trivial, Nat.le_add_left 1 levels⟩ ((next_le _).trans hle)
  · exact (arrayLoop_accepts hvalue (by simp) (Nat.lt_succ_self _)).mono hle (Nat.le_refl _)

theorem parseObject_accepts (hvalue : ∀ s, Accepts s.range.length levels (value s)) (s : Input) :
    Accepts s.range.length (levels + 1) (parseObject opts hash value s) := by
  have hle := (skipWhitespace_le s.next).trans (next_le s)
  unfold parseObject
  dsimp only
  split_ifs
  · exact .ok ⟨⟨List.nodup_nil, trivial⟩, Nat.le_add_left 1 levels⟩ ((next_le _).trans hle)
  · have hempty : ItemsFit levels ([] : List (List UInt8 × Dynamic D)) := ⟨List.nodup_nil, by simp⟩
    exact (objectLoop_accepts hvalue hempty (Nat.lt_succ_self _)).mono hle (Nat.le_refl _)

theorem parseValue_accepts (levels : Nat) (s : Input) : Accepts s.range.length levels (parseValue d opts hash levels s) := by
  induction levels generalizing s with
  | zero => exact .error _ _
  | succ levels ih =>
    have hle := skipWhitespace_le s
    unfold parseValue
    dsimp only
    split
    · exact (parseArray_accepts ih _).mono hle (Nat.le_refl _)
    · exact (parseObject_accepts ih _).mono hle (Nat.le_refl _)
    · next hquote =>
      obtain ⟨hfinishes, hstring⟩ := parseString_spec hquote
      refine .bind hfinishes ?_
      rintro ⟨out, s'⟩ hs'
      exact .ok ⟨trivial, Nat.le_add_left 1 levels⟩ ((hstring out s' hs').le.trans hle)
    · split_ifs
      · exact (parseNumber_accepts _).mono hle (Nat.le_add_left 1 levels)
      · exact (parseWord_accepts _).mono hle (Nat.le_add_left 1 levels)

/-- **The parser ends on every text**, with an error or with a value whose objects have distinct keys and whose
depth is within the recursion limit. -/
theorem parseJson_accepts (d : Doubles D) (opts : SerializationOpts) (hash : HashOrder D) (range : List UInt8) :
    parseJson d opts hash range ≠ .error .stuck ∧
    ∀ v, parseJson d opts hash range = .ok v → v.Valid (fun _ => True) ∧ v.depth ≤ opts.recursionLimit + 1 := by
  have haccepts : Accepts range.length (opts.recursionLimit + 1) (parseValue d opts hash (opts.recursionLimit + 1) { range }) :=
    parseValue_accepts _ (Input.mk range 0)
  constructor
  · refine haccepts.finishes.bind ?_
    rintro ⟨v, s⟩ -
    dsimp only
    split_ifs
    · exact finishes_error _ _
    · exact finishes_ok _
  · intro v h
    obtain ⟨⟨w, s⟩, hparse, h⟩ := bind_eq_ok.1 h
    dsimp only at h
    split_ifs at h
    · exact absurd h (error_ne_ok _ _ _)
    · obtain rfl : w = v := Except.ok.inj h
      exact (haccepts.fits w s hparse).1

end Values

end Raster.Json
