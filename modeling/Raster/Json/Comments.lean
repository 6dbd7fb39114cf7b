import Raster.Json.RoundTrip

/-!
# Comments in JSON

`stripComments` of `raster/util/json.cpp`, which a configuration goes through before it is parsed.
-/

namespace Raster.Json

open Conv

/-! ### The state machine -/

inductive CommentState
  | none
  | inString
  | inlineComment
  | lineComment
  deriving DecidableEq, Repr

/-- The loop of `stripComments`, on the characters ahead; two are taken where the source has a `++i` of its own. -/
@[simp] def stripLoop : CommentState → List UInt8 → Except String (List UInt8)
  | _, [] => .ok []
  | .none, 47 :: 42 :: s => stripLoop .inlineComment s
  | .none, 47 :: 47 :: s => stripLoop .lineComment s
  | .none, 34 :: s => (34 :: ·) <$> stripLoop .inString s
  | .none, c :: s => (c :: ·) <$> stripLoop .none s
  | .inString, [92] => .error "Invalid JSONC: string is not terminated"
  | .inString, 92 :: c :: s => (92 :: c :: ·) <$> stripLoop .inString s
  | .inString, 34 :: s => (34 :: ·) <$> stripLoop .none s
  | .inString, c :: s => (c :: ·) <$> stripLoop .inString s
  | .inlineComment, 42 :: 47 :: s => stripLoop .none s
  | .inlineComment, _ :: s => stripLoop .inlineComment s
  | .lineComment, 10 :: s => stripLoop .none s
  | .lineComment, _ :: s => stripLoop .lineComment s

/-- The text without its comments, or what the `logic_error` says. -/
def stripComments (jsonC : List UInt8) : Except String (List UInt8) := stripLoop .none jsonC

/-! ### Texts with comments -/

/-- What may be between the quotes of a string: no quote but behind a backslash. -/
inductive Raw : List UInt8 → Prop
  | nil : Raw []
  | plain {c : UInt8} {text : List UInt8} (hquote : c ≠ 34) (hslash : c ≠ 92) (h : Raw text) : Raw (c :: text)
  | escaped {text : List UInt8} (c : UInt8) (h : Raw text) : Raw (92 :: c :: text)

/-- The character opens a comment with the one behind it. -/
def Opens (c : UInt8) (rest : List UInt8) : Prop := c = 47 ∧ (rest.head? = some 42 ∨ rest.head? = some 47)

/-- What is between two comments or strings, or one of them, and what is left of it. -/
inductive Segment (rest : List UInt8) : List UInt8 → List UInt8 → Prop
  | code {c : UInt8} (hquote : c ≠ 34) (hopens : ¬Opens c rest) : Segment rest [c] [c]
  | string {text : List UInt8} (htext : Raw text) : Segment rest (34 :: (text ++ [34])) (34 :: (text ++ [34]))
  | inline {text : List UInt8} (htext : ¬[42, 47] <:+: text ++ [42]) : Segment rest (47 :: 42 :: (text ++ [42, 47])) []
  | line {text : List UInt8} (htext : 10 ∉ text) : Segment rest (47 :: 47 :: (text ++ [10])) []

/-- What the text may end with: a string or a comment may be left open. -/
inductive Last : List UInt8 → List UInt8 → Prop
  | nil : Last [] []
  | string {text : List UInt8} (htext : Raw text) : Last (34 :: text) (34 :: text)
  | inline {text : List UInt8} (htext : ¬[42, 47] <:+: text) : Last (47 :: 42 :: text) []
  | line {text : List UInt8} (htext : 10 ∉ text) : Last (47 :: 47 :: text) []

/-- A text with comments, and the text without them. -/
inductive Commented : List UInt8 → List UInt8 → Prop
  | last {s t : List UInt8} (h : Last s t) : Commented s t
  | append {pre kept s t : List UInt8} (h : Segment s pre kept) (h' : Commented s t) : Commented (pre ++ s) (kept ++ t)

/-! ### One character -/

theorem stripLoop_code {c : UInt8} {s : List UInt8} (hquote : c ≠ 34) (hopens : ¬Opens c s) :
    stripLoop .none (c :: s) = (c :: ·) <$> stripLoop .none s := by
  rw [stripLoop]
  · rintro s rfl rfl
    exact hopens ⟨rfl, .inl rfl⟩
  · rintro s rfl rfl
    exact hopens ⟨rfl, .inr rfl⟩
  · exact hquote

theorem stripLoop_plain {c : UInt8} (hquote : c ≠ 34) (hslash : c ≠ 92) (s : List UInt8) :
    stripLoop .inString (c :: s) = (c :: ·) <$> stripLoop .inString s := by
  rw [stripLoop]
  · exact fun h _ => hslash h
  · exact fun _ _ h _ => hslash h
  · exact hquote

theorem stripLoop_inside {c : UInt8} {s : List UInt8} (h : ¬[42, 47] <+: c :: s) :
    stripLoop .inlineComment (c :: s) = stripLoop .inlineComment s := by
  rw [stripLoop]
  rintro s rfl rfl
  exact h ⟨s, rfl⟩

theorem stripLoop_line {c : UInt8} (h : c ≠ 10) (s : List UInt8) : stripLoop .lineComment (c :: s) = stripLoop .lineComment s := by
  rw [stripLoop]
  exact h

/-! ### Whole strings and comments -/

theorem except_map_map (f g : List UInt8 → List UInt8) (x : Except String (List UInt8)) : f <$> g <$> x = (fun t => f (g t)) <$> x := by
  cases x <;> rfl

theorem stripLoop_raw {text : List UInt8} (h : Raw text) (s : List UInt8) :
    stripLoop .inString (text ++ s) = (text ++ ·) <$> stripLoop .inString s := by
  induction h with
  | nil =>
    show stripLoop .inString s = _
    cases stripLoop .inString s <;> rfl
  | plain hquote hslash _ ih =>
    rw [List.cons_append, stripLoop_plain hquote hslash, ih, except_map_map]
    rfl
  | escaped c _ ih =>
    rw [List.cons_append, List.cons_append, stripLoop, ih, except_map_map]
    rfl

theorem stripLoop_inline {text : List UInt8} (h : ¬[42, 47] <:+: text ++ [42]) (s : List UInt8) :
    stripLoop .inlineComment (text ++ 42 :: 47 :: s) = stripLoop .none s := by
  induction text with
  | nil => rw [List.nil_append, stripLoop]
  | cons c text ih =>
    rw [List.cons_append, List.infix_cons_iff, not_or] at h
    rw [List.cons_append, stripLoop_inside, ih h.2]
    intro hends
    have hprefix : c :: (text ++ [42]) <+: c :: (text ++ 42 :: 47 :: s) := ⟨47 :: s, by simp⟩
    exact h.1 (List.prefix_of_prefix_length_le hends hprefix (by simp))

theorem stripLoop_openInline {text : List UInt8} (h : ¬[42, 47] <:+: text) : stripLoop .inlineComment text = .ok [] := by
  induction text with
  | nil => rw [stripLoop]
  | cons c text ih =>
    rw [List.infix_cons_iff, not_or] at h
    rw [stripLoop_inside h.1, ih h.2]

theorem stripLoop_lineComment {text : List UInt8} (h : 10 ∉ text) (s : List UInt8) :
    stripLoop .lineComment (text ++ 10 :: s) = stripLoop .none s := by
  induction text with
  | nil => rw [List.nil_append, stripLoop]
  | cons c text ih =>
    have hc : c ≠ 10 := Ne.symm (List.ne_of_not_mem_cons h)
    rw [List.cons_append, stripLoop_line hc, ih (List.not_mem_of_not_mem_cons h)]

theorem stripLoop_openLine {text : List UInt8} (h : 10 ∉ text) : stripLoop .lineComment text = .ok [] := by
  induction text with
  | nil => rw [stripLoop]
  | cons c text ih =>
    have hc : c ≠ 10 := Ne.symm (List.ne_of_not_mem_cons h)
    rw [stripLoop_line hc, ih (List.not_mem_of_not_mem_cons h)]

theorem Segment.run {s pre kept : List UInt8} (h : Segment s pre kept) :
    stripLoop .none (pre ++ s) = (kept ++ ·) <$> stripLoop .none s := by
  cases h with
  | code hquote hopens => exact stripLoop_code hquote hopens
  | string htext =>
    rw [List.cons_append, List.append_assoc, stripLoop, stripLoop_raw htext, List.singleton_append, stripLoop, except_map_map, except_map_map]
    simp only [List.cons_append, List.append_assoc, List.nil_append]
  | inline htext =>
    rw [List.cons_append, List.cons_append, List.append_assoc, stripLoop]
    exact (stripLoop_inline htext s).trans (id_map _).symm
  | line htext =>
    rw [List.cons_append, List.cons_append, List.append_assoc, stripLoop, List.singleton_append, stripLoop_lineComment htext]
    exact (id_map _).symm

theorem Last.run {s t : List UInt8} (h : Last s t) : stripLoop .none s = .ok t := by
  cases h with
  | nil => rw [stripLoop]
  | @string text htext =>
    have hraw := stripLoop_raw htext []
    rw [List.append_nil] at hraw
    rw [stripLoop, hraw, stripLoop]
    exact congrArg (fun t => Except.ok (34 :: t)) (List.append_nil text)
  | inline htext => rw [stripLoop, stripLoop_openInline htext]
  | line htext => rw [stripLoop, stripLoop_openLine htext]

theorem Commented.run {s t : List UInt8} (h : Commented s t) : stripComments s = .ok t := by
  unfold stripComments
  induction h with
  | last h => exact h.run
  | append h _ ih =>
    rw [h.run, ih]
    rfl

/-! ### Every text -/

theorem raw_cases : (s : List UInt8) →
    Raw s ∨ (∃ text, Raw text ∧ s = text ++ [92]) ∨ ∃ text rest, Raw text ∧ s = text ++ 34 :: rest
  | [] => .inl .nil
  | [c] => by
    by_cases hquote : c = 34
    · exact .inr (.inr ⟨[], [], .nil, by rw [hquote]; rfl⟩)
    · by_cases hslash : c = 92
      · exact .inr (.inl ⟨[], .nil, by rw [hslash]; rfl⟩)
      · exact .inl (.plain hquote hslash .nil)
  | c :: c' :: s => by
    by_cases hquote : c = 34
    · exact .inr (.inr ⟨[], c' :: s, .nil, by rw [hquote]; rfl⟩)
    · by_cases hslash : c = 92
      · rw [hslash]
        obtain h | ⟨text, h, rfl⟩ | ⟨text, rest, h, rfl⟩ := raw_cases s
        · exact .inl (.escaped c' h)
        · exact .inr (.inl ⟨92 :: c' :: text, .escaped c' h, rfl⟩)
        · exact .inr (.inr ⟨92 :: c' :: text, rest, .escaped c' h, rfl⟩)
      · obtain h | ⟨text, h, hs⟩ | ⟨text, rest, h, hs⟩ := raw_cases (c' :: s)
        · exact .inl (.plain hquote hslash h)
        · exact .inr (.inl ⟨c :: text, .plain hquote hslash h, by rw [hs]; rfl⟩)
        · exact .inr (.inr ⟨c :: text, rest, .plain hquote hslash h, by rw [hs]; rfl⟩)

theorem inline_cases (s : List UInt8) :
    ¬[42, 47] <:+: s ∨ ∃ text rest, ¬[42, 47] <:+: text ++ [42] ∧ s = text ++ 42 :: 47 :: rest := by
  induction s with
  | nil => exact .inl fun h => absurd (List.infix_nil.1 h) (List.cons_ne_nil _ _)
  | cons c s ih =>
    by_cases hends : [42, 47] <+: c :: s
    · obtain ⟨rest, hrest⟩ := hends
      exact .inr ⟨[], rest, fun h => absurd h.length_le (by decide), hrest.symm⟩
    · obtain h | ⟨text, rest, h, rfl⟩ := ih
      · exact .inl fun hin => (List.infix_cons_iff.1 hin).elim hends h
      · refine .inr ⟨c :: text, rest, fun hin => (List.infix_cons_iff.1 hin).elim (fun hpre => hends ?_) h, rfl⟩
        exact hpre.trans ⟨47 :: rest, by simp⟩

theorem line_cases (s : List UInt8) : 10 ∉ s ∨ ∃ text rest, 10 ∉ text ∧ s = text ++ 10 :: rest := by
  by_cases h : 10 ∈ s
  · obtain ⟨text, rest, hs, htext⟩ := List.eq_append_cons_of_mem h
    exact .inr ⟨text, rest, htext, hs⟩
  · exact .inl h

/-- A text is at its last part, ends in a string that has nothing behind a backslash, or has a segment first. -/
theorem segment_cases (s : List UInt8) : (∃ t, Last s t) ∨ (∃ text, Raw text ∧ s = 34 :: (text ++ [92])) ∨
    ∃ pre kept rest, pre ≠ [] ∧ Segment rest pre kept ∧ s = pre ++ rest := by
  obtain - | ⟨c, s⟩ := s
  · exact .inl ⟨[], .nil⟩
  by_cases hquote : c = 34
  · subst hquote
    obtain h | ⟨text, h, rfl⟩ | ⟨text, rest, h, rfl⟩ := raw_cases s
    · exact .inl ⟨_, .string h⟩
    · exact .inr (.inl ⟨text, h, rfl⟩)
    · exact .inr (.inr ⟨_, _, rest, List.cons_ne_nil _ _, .string h, by simp⟩)
  by_cases hopens : Opens c s
  · obtain ⟨rfl, hopen | hopen⟩ := hopens
    · obtain ⟨s, rfl⟩ := List.head?_eq_some_iff.1 hopen
      obtain h | ⟨text, rest, h, rfl⟩ := inline_cases s
      · exact .inl ⟨[], .inline h⟩
      · exact .inr (.inr ⟨_, _, rest, List.cons_ne_nil _ _, .inline h, by simp⟩)
    · obtain ⟨s, rfl⟩ := List.head?_eq_some_iff.1 hopen
      obtain h | ⟨text, rest, h, rfl⟩ := line_cases s
      · exact .inl ⟨[], .line h⟩
      · exact .inr (.inr ⟨_, _, rest, List.cons_ne_nil _ _, .line h, by simp⟩)
  · exact .inr (.inr ⟨[c], [c], s, List.cons_ne_nil _ _, .code hquote hopens, rfl⟩)

theorem commented_or (s : List UInt8) : (∃ t, Commented s t) ∨
    stripComments s = .error "Invalid JSONC: string is not terminated" ∧ s.getLast? = some 92 := by
  induction hn : s.length using Nat.strong_induction_on generalizing s with
  | h n ih =>
    obtain ⟨t, h⟩ | ⟨text, h, rfl⟩ | ⟨pre, kept, rest, hpre, h, rfl⟩ := segment_cases s
    · exact .inl ⟨t, .last h⟩
    · refine .inr ⟨?_, by rw [← List.cons_append, List.getLast?_concat]⟩
      unfold stripComments
      rw [stripLoop, stripLoop_raw h, stripLoop]
      rfl
    · have hlt : rest.length < n := by
        have hpos := List.length_pos_iff.2 hpre
        rw [← hn, List.length_append]
        omega
      obtain ⟨t, ht⟩ | ⟨herror, hlast⟩ := ih rest.length hlt rest rfl
      · exact .inl ⟨kept ++ t, .append h ht⟩
      · refine .inr ⟨?_, ?_⟩
        · unfold stripComments at herror ⊢
          rw [h.run, herror]
          rfl
        · rw [List.getLast?_append, hlast]
          rfl

/-! ### What is stripped once -/

theorem Opens.of_commented {c : UInt8} {s t : List UInt8} (h : Commented s t) (hopens : Opens c t) : Opens c s := by
  obtain ⟨rfl, hhead⟩ := hopens
  refine ⟨rfl, ?_⟩
  cases h with
  | last h =>
    cases h with
    | nil => exact hhead
    | string => exact hhead
    | inline => exact .inr rfl
    | line => exact .inr rfl
  | append h _ =>
    cases h with
    | code => exact hhead
    | string => exact hhead
    | inline => exact .inr rfl
    | line => exact .inr rfl

theorem Commented.stripped {s t : List UInt8} (h : Commented s t) : Commented t t := by
  induction h with
  | last h =>
    cases h with
    | nil => exact .last .nil
    | string htext => exact .last (.string htext)
    | inline => exact .last .nil
    | line => exact .last .nil
  | append h h' ih =>
    cases h with
    | code hquote hopens => exact .append (.code hquote fun h => hopens (h.of_commented h')) ih
    | string htext => exact .append (.string htext) ih
    | inline => exact ih
    | line => exact ih

/-- **What is between comments is kept**, to the character, and nothing else; a text without comments stays as
it is; and the loop throws only on a text that ends with a backslash. -/
theorem stripComments_iff (s : List UInt8) :
    (∀ t, stripComments s = .ok t ↔ Commented s t) ∧ (∀ t, stripComments s = .ok t → stripComments t = .ok t) ∧
    ∀ e, stripComments s = .error e → e = "Invalid JSONC: string is not terminated" ∧ s.getLast? = some 92 := by
  have hiff (t : List UInt8) : stripComments s = .ok t ↔ Commented s t := by
    refine ⟨fun h => ?_, Commented.run⟩
    obtain ⟨t', ht'⟩ | ⟨herror, -⟩ := commented_or s
    · obtain rfl := Except.ok.inj (h.symm.trans ht'.run)
      exact ht'
    · cases h.symm.trans herror
  refine ⟨hiff, fun t h => ((hiff t).1 h).stripped.run, fun e h => ?_⟩
  obtain ⟨t, ht⟩ | ⟨herror, hlast⟩ := commented_or s
  · cases h.symm.trans ht.run
  · exact ⟨Except.error.inj (h.symm.trans herror), hlast⟩

/-- The line break goes with the comment before it, and two numbers become one. -/
example : stripComments [49, 47, 47, 10, 50] = .ok [49, 50] := rfl

/-! ### What is printed -/

/-- A text that keeps its characters before any other. -/
def Uncommented (out : List UInt8) : Prop := ∀ s t, Commented s t → Commented (out ++ s) (out ++ t)

theorem Uncommented.append {out out' : List UInt8} (h : Uncommented out) (h' : Uncommented out') : Uncommented (out ++ out') := by
  intro s t hst
  rw [List.append_assoc, List.append_assoc]
  exact h _ _ (h' s t hst)

theorem Uncommented.of_code {out : List UInt8} (h : ∀ c ∈ out, c ≠ 34 ∧ c ≠ 47) : Uncommented out := by
  induction out with
  | nil => exact fun s t hst => hst
  | cons c out ih =>
    obtain ⟨⟨hquote, hslash⟩, hout⟩ := List.forall_mem_cons.1 h
    intro s t hst
    show Commented ([c] ++ (out ++ s)) ([c] ++ (out ++ t))
    exact .append (.code hquote fun hopens => hslash hopens.1) (ih hout s t hst)

theorem uncommented_single {c : UInt8} (h : c ≠ 34 ∧ c ≠ 47) : Uncommented [c] :=
  .of_code fun _ hc => List.mem_singleton.1 hc ▸ h

theorem Hex.raw {ds : List UInt8} {n : Nat} (h : Hex ds n) : Raw ds := by
  have hplain : ∀ c ∈ ds, c ≠ 34 ∧ c ≠ 92 := by
    intro c hc
    have hsome := h.isHex c hc
    constructor
    · rintro rfl
      exact absurd hsome (by decide)
    · rintro rfl
      exact absurd hsome (by decide)
  clear h
  induction ds with
  | nil => exact .nil
  | cons c ds ih =>
    obtain ⟨hc, hds⟩ := List.forall_mem_cons.1 hplain
    exact .plain hc.1 hc.2 (ih hds)

theorem Raw.append {text text' : List UInt8} (h : Raw text) (h' : Raw text') : Raw (text ++ text') := by
  induction h with
  | nil => exact h'
  | plain hquote hslash _ ih => exact .plain hquote hslash ih
  | escaped c _ ih => exact .escaped c ih

theorem Literal.raw {text value : List UInt8} (h : Literal text value) : Raw text := by
  induction h with
  | nil => exact .nil
  | plain hquote hslash _ ih => exact .plain hquote hslash ih
  | @escape e out text value he _ ih =>
    rw [← List.cons_append]
    refine Raw.append ?_ ih
    cases he with
    | short => exact .escaped _ .nil
    | unicode h => exact .escaped 117 h.raw
    | surrogates h _ h' => exact .escaped 117 (h.raw.append (.escaped 117 h'.raw))

theorem Uncommented.of_literal {text value : List UInt8} (h : Literal text value) : Uncommented (34 :: (text ++ [34])) :=
  fun _ _ hst => .append (.string h.raw) hst

theorem uncommented_text (v : Int) : Uncommented (text v) := by
  obtain ⟨ds, -, hlt, htext⟩ := text_cases v
  have hdigits : Uncommented (ds.map digit) := by
    refine .of_code fun c hc => ?_
    obtain ⟨k, hk, rfl⟩ := List.mem_map.1 hc
    have hdigit := isdigit_digit (hlt k hk)
    constructor
    · exact fun h => absurd (h ▸ hdigit) (by decide)
    · exact fun h => absurd (h ▸ hdigit) (by decide)
  obtain ⟨-, h⟩ | ⟨-, h⟩ := htext
  · rw [h]
    exact (uncommented_single (by decide)).append hdigits
  · rw [h]
    exact hdigits

theorem uncommented_newline (level : Option Nat) : Uncommented (newline level) := by
  refine .of_code fun c hc => ?_
  cases level with
  | none => cases hc
  | some level =>
    obtain rfl | hspace := List.mem_cons.1 hc
    · exact ⟨by decide, by decide⟩
    · obtain ⟨-, rfl⟩ := List.mem_replicate.1 hspace
      exact ⟨by decide, by decide⟩

theorem uncommented_layout (level : Option Nat) {first last : UInt8} (hfirst : first ≠ 34 ∧ first ≠ 47)
    (hlast : last ≠ 34 ∧ last ≠ 47) {outs : List (List UInt8)} (h : ∀ out ∈ outs, Uncommented out) :
    Uncommented (layout level first last outs) := by
  have htail (level : Option Nat) {outs : List (List UInt8)} (h : ∀ out ∈ outs, Uncommented out) :
      Uncommented (tailText level outs) := by
    induction outs with
    | nil => exact fun s t hst => hst
    | cons out outs ih =>
      obtain ⟨hout, houts⟩ := List.forall_mem_cons.1 h
      have hitem := (uncommented_single (c := 44) (by decide)).append ((uncommented_newline level).append hout)
      exact hitem.append (ih houts)
  cases outs with
  | nil => exact (uncommented_single hfirst).append (uncommented_single hlast)
  | cons out outs =>
    obtain ⟨hout, houts⟩ := List.forall_mem_cons.1 h
    have hend := (uncommented_newline level).append (uncommented_single hlast)
    have hinner := (uncommented_newline (level.map (· + 1))).append (hout.append ((htail (level.map (· + 1)) houts).append hend))
    exact (uncommented_single hfirst).append hinner

theorem forall_of_forall₂ {α β : Type} {r : α → β → Prop} {P : β → Prop} {as : List α} {bs : List β} (h : List.Forall₂ r as bs)
    (hr : ∀ a ∈ as, ∀ b, r a b → P b) : ∀ b ∈ bs, P b := by
  induction h with
  | nil => exact fun _ hb => absurd hb List.not_mem_nil
  | cons hab _ ih =>
    obtain ⟨ha, has⟩ := List.forall_mem_cons.1 hr
    exact List.forall_mem_cons.2 ⟨ha _ hab, ih has⟩

variable {D : Type} {d : Doubles D} {popts : SerializationOpts}

theorem uncommented_print (v : Dynamic D) : v.Valid (fun x => ∀ c ∈ d.toAppend x, c ≠ 34 ∧ c ≠ 47) →
    ∀ level out, print d popts level v = .ok out → Uncommented out := by
  induction v using Dynamic.induction with
  | nullt =>
    rintro - level out ⟨⟩
    exact .of_code (by simp)
  | bool b =>
    rintro - level out ⟨⟩
    exact .of_code (by cases b <;> simp)
  | int64 i =>
    rintro - level out h
    obtain rfl := printInt_ok d popts h
    exact uncommented_text i.toInt
  | double x =>
    intro hx level out h
    rw [print] at h
    split_ifs at h
    cases h
    exact .of_code hx
  | string s =>
    rintro - level out h
    obtain ⟨text, rfl, hliteral, -⟩ := escapeString_ok h
    exact .of_literal hliteral
  | array vs ih =>
    intro hvalid level out h
    have hvalid := Dynamic.allValid_iff.1 hvalid
    rw [print, printValues_eq] at h
    obtain ⟨outs, htexts, rfl⟩ := enclosed_ok level h
    refine uncommented_layout level (by decide) (by decide) (forall_of_forall₂ (forall₂_of_map htexts) ?_)
    exact fun v hv out hprint => ih v hv (hvalid v hv) _ out hprint
  | object items ih =>
    rintro ⟨-, hvalid⟩ level out h
    have hvalid := Dynamic.itemsValid_iff.1 hvalid
    obtain ⟨ps, outs, hperm, rfl, hprinted⟩ := printObject_ok h
    refine uncommented_layout level (by decide) (by decide) (forall_of_forall₂ hprinted ?_)
    intro p hp out hout
    have hmem : p ∈ items := hperm.mem_iff.1 hp
    obtain ⟨key, hkey, hout⟩ := bind_eq_ok.1 hout
    obtain ⟨value, hvalue, hout⟩ := bind_eq_ok.1 hout
    cases hout
    obtain ⟨text, rfl, hliteral, -⟩ := escapeString_ok hkey
    have hcolon : Uncommented (mapColon level) := by
      refine .of_code ?_
      unfold mapColon
      cases level.isSome <;> simp
    exact ((Uncommented.of_literal hliteral).append hcolon).append (ih p hmem (hvalid p hmem) _ value hvalue)

/-- **Printed text goes through unchanged**, for every value and every way to print, if the text of its
`double`s has no quote and no slash; so do the comments' marks that are inside its strings. -/
theorem stripComments_serialize {v : Dynamic D} (hvalid : v.Valid fun x => ∀ c ∈ d.toAppend x, c ≠ 34 ∧ c ≠ 47) {out : List UInt8}
    (h : serialize d popts v = .ok out) : stripComments out = .ok out := by
  have hout := uncommented_print v hvalid _ out h [] [] (.last .nil)
  rw [List.append_nil] at hout
  exact hout.run

/-- A string that looks like a comment, and a number. -/
def addresses : Dynamic Int := .array [.string [47, 47, 97, 47, 42], .double 7]

theorem stripComments_serialize_addresses :
    stripComments [91, 34, 47, 47, 97, 47, 42, 34, 44, 55, 93] = .ok [91, 34, 47, 47, 97, 47, 42, 34, 44, 55, 93] := by
  have hvalid : addresses.Valid fun x => ∀ c ∈ wholeDoubles.toAppend x, c ≠ 34 ∧ c ≠ 47 := by
    refine ⟨trivial, ?_, trivial⟩
    have htext : wholeDoubles.toAppend 7 = [55] := by decide +kernel
    intro c hc
    rw [htext] at hc
    obtain rfl := List.mem_singleton.1 hc
    exact ⟨by decide, by decide⟩
  have hprint : serialize wholeDoubles {} addresses = .ok [91, 34, 47, 47, 97, 47, 42, 34, 44, 55, 93] := by
    decide +kernel
  exact stripComments_serialize hvalid hprint

end Raster.Json
