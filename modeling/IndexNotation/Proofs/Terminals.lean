import IndexNotation.Syntax.Parser
import Mathlib.Computability.Language
import Mathlib.Data.List.TakeWhile

/-!
# Terminals take the longest piece of their language

A terminal is a set of words, written here as a regular language. The function that reads it finds
the longest word of the language that the text starts with, so to take a terminal means that such
a word stands there, after white space.
-/

namespace IndexNotation

open Computability

/-- What holds for a list of characters is decided along the list, not over all characters. -/
instance (priority := high) decidableForallChars (p : Char → Prop) [DecidablePred p] (cs : List Char) :
    Decidable (∀ c ∈ cs, p c) :=
  List.decidableBAll p cs

/-! ## Languages -/

namespace Lexicon

/-- Any one character of a class. -/
def one (p : Char → Bool) : Language Char := {w | ∃ c, p c = true ∧ w = [c]}

/-- One or more characters of a class. -/
def oneOrMore (p : Char → Bool) : Language Char := one p * (one p)∗

def symbols (ss : List String) : Language Char := {w | ∃ s ∈ ss, w = s.toList}

def symbol (s : String) : Language Char := symbols [s]

def assign : Language Char := symbols [":=", "+=", "-=", "*=", "="]
def addOp : Language Char := symbols ["+", "-"]
def mulOp : Language Char := symbols ["*", "//", "/", "%"]
def powOp : Language Char := symbols ["**", "^"]

def name : Language Char :=
  one Terminal.isNameStart * (one Terminal.isNamePart)∗ * (one Terminal.isPrime)∗

def mantissa : Language Char :=
  oneOrMore Text.isDigit * symbol "." * (one Text.isDigit)∗ +
    symbol "." * oneOrMore Text.isDigit + oneOrMore Text.isDigit

def exponent : Language Char :=
  symbols ["e", "E"] * (1 + symbols ["+", "-"]) * oneOrMore Text.isDigit

def number : Language Char := mantissa * (1 + exponent)

variable {p : Char → Bool} {w : List Char}

theorem mem_kstar_one : w ∈ (one p)∗ ↔ ∀ c ∈ w, p c := by
  rw [Language.mem_kstar]
  constructor
  · rintro ⟨ws, rfl, hws⟩ c hc
    obtain ⟨v, hv, hc⟩ := List.mem_flatten.1 hc
    obtain ⟨d, hd, rfl⟩ := hws v hv
    exact List.mem_singleton.1 hc ▸ hd
  · intro hw
    refine ⟨w.map fun c => [c], by simp [← List.flatMap_def], ?_⟩
    simp only [List.mem_map]
    rintro _ ⟨c, hc, rfl⟩
    exact ⟨c, hw c hc, rfl⟩

theorem mem_oneOrMore : w ∈ oneOrMore p ↔ w ≠ [] ∧ ∀ c ∈ w, p c := by
  constructor
  · rintro ⟨_, ⟨c, hc, rfl⟩, v, hv, rfl⟩
    refine ⟨by simp, ?_⟩
    simpa using ⟨hc, mem_kstar_one.1 hv⟩
  · rintro ⟨hw, h⟩
    cases w with
    | nil => exact absurd rfl hw
    | cons c v =>
      rw [List.forall_mem_cons] at h
      exact ⟨[c], ⟨c, h.1, rfl⟩, v, mem_kstar_one.2 h.2, rfl⟩

@[simp] theorem mem_symbols {ss : List String} : w ∈ symbols ss ↔ ∃ s ∈ ss, w = s.toList := Iff.rfl

@[simp] theorem mem_symbol {s : String} : w ∈ symbol s ↔ w = s.toList := by
  simp [symbol]

/-- The words of `name`, part by part. -/
theorem mem_name : w ∈ name ↔ ∃ c a b, w = c :: (a ++ b) ∧ Terminal.isNameStart c ∧
    (∀ x ∈ a, Terminal.isNamePart x) ∧ ∀ x ∈ b, Terminal.isPrime x := by
  constructor
  · rintro ⟨_, ⟨_, ⟨c, hc, rfl⟩, a, ha, rfl⟩, b, hb, rfl⟩
    exact ⟨c, a, b, by simp, hc, mem_kstar_one.1 ha, mem_kstar_one.1 hb⟩
  · rintro ⟨c, a, b, rfl, hc, ha, hb⟩
    exact ⟨c :: a, ⟨[c], ⟨c, hc, rfl⟩, a, mem_kstar_one.2 ha, rfl⟩, b, mem_kstar_one.2 hb, rfl⟩

/-- The words of `mantissa`, part by part. -/
theorem mem_mantissa : w ∈ mantissa ↔
    (∃ a b, w = a ++ '.' :: b ∧ (∀ c ∈ a, Text.isDigit c) ∧ (∀ c ∈ b, Text.isDigit c) ∧
      (a ≠ [] ∨ b ≠ [])) ∨ w ≠ [] ∧ ∀ c ∈ w, Text.isDigit c := by
  simp only [mantissa, Language.mem_add, Language.mem_mul, mem_symbol, mem_oneOrMore, mem_kstar_one]
  constructor
  · rintro ((⟨_, ⟨a, ha, _, rfl, rfl⟩, b, hb, rfl⟩ | ⟨_, rfl, b, hb, rfl⟩) | h)
    · exact .inl ⟨a, b, by simp, ha.2, hb, .inl ha.1⟩
    · exact .inl ⟨[], b, by simp, by simp, hb.2, .inr hb.1⟩
    · exact .inr h
  · rintro (⟨a, b, rfl, ha, hb, h⟩ | h)
    · refine .inl ?_
      by_cases ha' : a = []
      · exact .inr ⟨_, rfl, b, ⟨h.resolve_left fun h => h ha', hb⟩, by simp [ha']⟩
      · exact .inl ⟨a ++ ['.'], ⟨a, ⟨ha', ha⟩, _, rfl, rfl⟩, b, hb, by simp⟩
    · exact .inr h

/-- The words of `exponent`, part by part. -/
theorem mem_exponent : w ∈ exponent ↔ ∃ c s d, w = c :: (s ++ d) ∧ (c = 'e' ∨ c = 'E') ∧
    (s = [] ∨ s = ['+'] ∨ s = ['-']) ∧ d ≠ [] ∧ ∀ x ∈ d, Text.isDigit x := by
  simp only [exponent, Language.mem_mul, Language.mem_add, Language.mem_one, mem_symbols, mem_oneOrMore]
  constructor
  · rintro ⟨_, ⟨_, ⟨m, hm, rfl⟩, s, hs, rfl⟩, d, hd, rfl⟩
    refine ⟨if m = "e" then 'e' else 'E', s, d, ?_, by split <;> simp, ?_, hd⟩
    · simp only [List.mem_cons, List.not_mem_nil, or_false] at hm
      rcases hm with rfl | rfl <;> simp
    · rcases hs with rfl | ⟨t, ht, rfl⟩
      · exact .inl rfl
      · simp only [List.mem_cons, List.not_mem_nil, or_false] at ht
        rcases ht with rfl | rfl <;> simp
  · rintro ⟨c, s, d, rfl, hc, hs, hd⟩
    refine ⟨c :: s, ⟨[c], ?_, s, ?_, rfl⟩, d, hd, rfl⟩
    · rcases hc with rfl | rfl <;> simp
    · rcases hs with rfl | rfl | rfl <;> simp

end Lexicon

/-! ## The longest word -/

/-- A terminal reads a language: it finds the longest word that the text starts with, and nothing
if there is none. Words of terminals are not empty and do not start with white space. -/
structure Terminal.Scans (t : Terminal) (L : Language Char) : Prop where
  found : ∀ cs, 0 < t cs → ∃ w ∈ L, w <+: cs ∧ w.length = t cs
  longest : ∀ cs, ∀ w ∈ L, w <+: cs → w.length ≤ t cs
  solid : ∀ w ∈ L, ∃ c v, w = c :: v ∧ isSpace c = false

namespace Terminal

/-- A word that goes on after characters of a class either takes all of the class that is there,
or goes on with a character of the class. -/
theorem append_prefix_cases {p : Char → Bool} {a b cs : List Char} (ha : ∀ c ∈ a, p c)
    (h : a ++ b <+: cs) :
    a = cs.takeWhile p ∧ b <+: cs.dropWhile p ∨
      a.length < (cs.takeWhile p).length ∧ ∀ c ∈ b.head?, p c := by
  obtain ⟨rest, rfl⟩ := h
  rw [List.append_assoc, List.takeWhile_append_of_pos ha, List.dropWhile_append_of_pos ha]
  cases hb : b ++ rest with
  | nil => exact .inl ⟨by simp, (List.append_eq_nil_iff.1 hb).1 ▸ List.nil_prefix⟩
  | cons c cs =>
    by_cases hc : p c = true
    · refine .inr ⟨by simp [hc], ?_⟩
      cases b with
      | nil => simp
      | cons d b =>
        rw [List.cons_append, List.cons.injEq] at hb
        simpa [hb.1] using hc
    · rw [List.takeWhile_cons_of_neg hc, List.dropWhile_cons_of_neg hc, ← hb]
      exact .inl ⟨by simp, List.prefix_append ..⟩

theorem takeWhile_append_prefix {p : Char → Bool} {b cs : List Char} (h : b <+: cs.dropWhile p) :
    cs.takeWhile p ++ b <+: cs := by
  obtain ⟨rest, hrest⟩ := h
  exact ⟨rest, by rw [List.append_assoc, hrest, List.takeWhile_append_dropWhile]⟩

theorem symbols_cases (ss : List String) (cs : List Char) :
    (symbols ss cs = 0 ∧ ∀ s ∈ ss, ¬ s.toList <+: cs) ∨
      ∃ as s bs, ss = as ++ s :: bs ∧ s.toList <+: cs ∧ (∀ a ∈ as, ¬ a.toList <+: cs) ∧
        symbols ss cs = s.toList.length := by
  cases hfind : ss.find? fun s => s.toList.isPrefixOf cs with
  | none =>
    refine .inl ⟨by rw [symbols, hfind], fun s hs => ?_⟩
    simpa [List.isPrefixOf_iff_prefix] using List.find?_eq_none.1 hfind s hs
  | some s =>
    obtain ⟨hs, as, bs, hss, has⟩ := List.find?_eq_some_iff_append.1 hfind
    refine .inr ⟨as, s, bs, hss, List.isPrefixOf_iff_prefix.1 hs, fun a ha => ?_, ?_⟩
    · simpa [← List.isPrefixOf_iff_prefix] using has a ha
    · rw [symbols, hfind, String.length_toList]

/-- No symbol is the start of a later one, so the first that fits is the longest. -/
theorem scans_symbols {ss ts : List String} (hmem : ∀ s, s ∈ ss ↔ s ∈ ts)
    (hss : ss.Pairwise fun a b => ¬ a.toList <+: b.toList)
    (hsolid : ∀ s ∈ ss, s.toList.head?.any (!isSpace ·)) :
    Scans (symbols ss) (Lexicon.symbols ts) where
  found cs h := by
    rcases symbols_cases ss cs with ⟨hzero, -⟩ | ⟨as, s, bs, rfl, hs, -, hlen⟩
    · omega
    · exact ⟨s.toList, ⟨s, (hmem s).1 (by simp), rfl⟩, hs, hlen.symm⟩
  longest cs w hw hpre := by
    obtain ⟨u, hu, rfl⟩ := hw
    rw [← hmem] at hu
    rcases symbols_cases ss cs with ⟨-, hnone⟩ | ⟨as, s, bs, rfl, hs, has, hlen⟩
    · exact absurd hpre (hnone u hu)
    · rw [hlen]
      simp only [List.mem_append, List.mem_cons] at hu
      rcases hu with hu | rfl | hu
      · exact absurd hpre (has u hu)
      · exact Nat.le_refl _
      · have hnot := (List.pairwise_cons.1 (List.pairwise_append.1 hss).2.1).1 u hu
        exact ((List.prefix_or_prefix_of_prefix hpre hs).resolve_right hnot).length_le
  solid w hw := by
    obtain ⟨s, hs, rfl⟩ := hw
    have := hsolid s ((hmem s).2 hs)
    cases hv : s.toList with
    | nil => simp [hv] at this
    | cons c v => exact ⟨c, v, rfl, by simpa [hv] using this⟩

theorem scans_symbol {s : String} (hs : s.toList.head?.any (!isSpace ·)) :
    Scans (symbol s) (Lexicon.symbol s) :=
  scans_symbols (fun _ => Iff.rfl) (List.pairwise_singleton ..) (by simpa using hs)

theorem scans_assign : Scans assign Lexicon.assign :=
  scans_symbols (fun _ => Iff.rfl) (by decide) (by decide)

theorem scans_addOp : Scans addOp Lexicon.addOp :=
  scans_symbols (fun _ => Iff.rfl) (by decide) (by decide)

theorem scans_mulOp : Scans mulOp Lexicon.mulOp :=
  scans_symbols (by simp [or_left_comm]) (by decide) (by decide)

theorem scans_powOp : Scans powOp Lexicon.powOp :=
  scans_symbols (fun _ => Iff.rfl) (by decide) (by decide)

/-! ### Names -/

theorem isNamePart_of_isPrime {c : Char} (h : isPrime c) : isNamePart c = false := by
  simp only [isPrime, Bool.or_eq_true, beq_iff_eq] at h
  rcases h with rfl | rfl <;> decide

theorem isSpace_of_isNameStart {c : Char} (h : isNameStart c) : isSpace c = false := by
  rw [Bool.eq_false_iff]
  intro hs
  simp only [isSpace, Bool.or_eq_true, beq_iff_eq] at hs
  rcases hs with (((rfl | rfl) | rfl) | rfl) | rfl <;> exact absurd h (by decide)

theorem scans_name : Scans name Lexicon.name where
  found cs h := by
    cases cs with
    | nil => simp [name] at h
    | cons c cs =>
      by_cases hc : isNameStart c
      · let a := cs.takeWhile isNamePart
        let b := (cs.dropWhile isNamePart).takeWhile isPrime
        have hmem : c :: (a ++ b) ∈ Lexicon.name := Lexicon.mem_name.2
          ⟨c, a, b, rfl, hc, fun x hx => List.mem_takeWhile_imp hx,
            fun x hx => List.mem_takeWhile_imp hx⟩
        refine ⟨_, hmem, List.cons_prefix_cons.2 ⟨rfl, ?_⟩, ?_⟩
        · exact takeWhile_append_prefix (List.takeWhile_prefix _)
        · simp only [name, hc, if_true, List.length_cons, List.length_append, a, b]
          omega
      · simp [name, hc] at h
  longest cs w hw hpre := by
    obtain ⟨c, a, b, rfl, hc, ha, hb⟩ := Lexicon.mem_name.1 hw
    cases cs with
    | nil => simp at hpre
    | cons d cs =>
      obtain ⟨rfl, hab⟩ := List.cons_prefix_cons.1 hpre
      simp only [name, hc, if_true, List.length_cons, List.length_append]
      rcases append_prefix_cases ha hab with ⟨rfl, hbs⟩ | ⟨hlt, hb'⟩
      · -- The class of the primes goes on from there.
        rw [← List.append_nil b] at hbs
        rcases append_prefix_cases hb hbs with ⟨rfl, -⟩ | ⟨hlt, -⟩ <;> omega
      · have hnil : b = [] := by
          cases b with
          | nil => rfl
          | cons x b =>
            have := isNamePart_of_isPrime (hb x (by simp))
            simp [hb' x rfl] at this
        subst hnil
        simp only [List.length_nil]
        omega
  solid w hw := by
    obtain ⟨c, a, b, rfl, hc, -⟩ := Lexicon.mem_name.1 hw
    exact ⟨c, a ++ b, rfl, isSpace_of_isNameStart hc⟩

/-! ### Numbers -/

theorem mantissa_of_point {cs rest : List Char} (h : cs.dropWhile Text.isDigit = '.' :: rest) :
    mantissa cs = if cs.takeWhile Text.isDigit = [] ∧ rest.takeWhile Text.isDigit = [] then 0
      else (cs.takeWhile Text.isDigit ++ '.' :: rest.takeWhile Text.isDigit).length := by
  simp only [mantissa, h]
  simp only [Bool.and_eq_true, beq_iff_eq, List.length_eq_zero_iff, List.length_append,
    List.length_cons]
  split <;> omega

theorem mantissa_of_no_point {cs : List Char} (h : (cs.dropWhile Text.isDigit).head? ≠ some '.') :
    mantissa cs = (cs.takeWhile Text.isDigit).length := by
  unfold mantissa
  split
  · next heq => simp [heq] at h
  · rfl

theorem found_mantissa {cs : List Char} (h : 0 < mantissa cs) :
    ∃ w ∈ Lexicon.mantissa, w <+: cs ∧ w.length = mantissa cs := by
  by_cases hpoint : (cs.dropWhile Text.isDigit).head? = some '.'
  · obtain ⟨rest, hrest⟩ := List.head?_eq_some_iff.1 hpoint
    rw [mantissa_of_point hrest] at h ⊢
    split at h
    · omega
    · next hne =>
      rw [if_neg hne]
      refine ⟨_, Lexicon.mem_mantissa.2 (.inl ⟨_, _, rfl, fun c hc => List.mem_takeWhile_imp hc,
        fun c hc => List.mem_takeWhile_imp hc, by tauto⟩), takeWhile_append_prefix ?_, rfl⟩
      rw [hrest, List.prefix_cons_inj]
      exact List.takeWhile_prefix _
  · rw [mantissa_of_no_point hpoint] at h ⊢
    exact ⟨_, Lexicon.mem_mantissa.2 (.inr ⟨List.length_pos_iff.1 h,
      fun c hc => List.mem_takeWhile_imp hc⟩), List.takeWhile_prefix _, rfl⟩

/-- The sign of an exponent and what follows it. -/
theorem exponent_split {c : Char} (hc : c = 'e' ∨ c = 'E') (cs : List Char) :
    ∃ s rest, cs = s ++ rest ∧ (s = [] ∨ s = ['+'] ∨ s = ['-']) ∧
      (s = [] → ∀ x ∈ rest.head?, x ≠ '+' ∧ x ≠ '-') ∧
      exponent (c :: cs) = if rest.takeWhile Text.isDigit = [] then 0
        else (c :: (s ++ rest.takeWhile Text.isDigit)).length := by
  have hc' : (c == 'e' || c == 'E') = true := by simpa using hc
  by_cases hsign : (cs.head?.any fun s => s == '+' || s == '-') = true
  · cases cs with
    | nil => simp at hsign
    | cons x cs =>
      refine ⟨[x], cs, rfl, .inr (by simpa using hsign), by simp, ?_⟩
      simp only [exponent, hc', hsign, if_true, List.drop_succ_cons, List.drop_zero, beq_iff_eq,
        List.length_eq_zero_iff, List.length_cons, List.length_append, List.length_nil]
      split <;> omega
  · refine ⟨[], cs, rfl, .inl rfl, fun _ x hx => ?_, ?_⟩
    · rw [Option.mem_def] at hx
      simpa [hx] using hsign
    · simp only [exponent, hc', hsign, if_true, if_false, List.drop_zero, beq_iff_eq,
        List.length_eq_zero_iff, List.length_cons, List.nil_append, Bool.false_eq_true]
      split <;> omega

theorem exponent_of_ne {c : Char} (hc : ¬ (c = 'e' ∨ c = 'E')) (cs : List Char) :
    exponent (c :: cs) = 0 := by
  have hc' : (c == 'e' || c == 'E') = false := by simpa using hc
  simp [exponent, hc']

theorem found_exponent {cs : List Char} (h : 0 < exponent cs) :
    ∃ w ∈ Lexicon.exponent, w <+: cs ∧ w.length = exponent cs := by
  cases cs with
  | nil => simp [exponent] at h
  | cons c cs =>
    by_cases hc : c = 'e' ∨ c = 'E'
    · obtain ⟨s, rest, rfl, hs, -, heq⟩ := exponent_split hc cs
      rw [heq] at h ⊢
      split at h
      · omega
      · next hne =>
        rw [if_neg hne]
        refine ⟨_, Lexicon.mem_exponent.2 ⟨c, s, _, rfl, hc, hs, hne,
          fun x hx => List.mem_takeWhile_imp hx⟩, ?_, rfl⟩
        rw [List.prefix_cons_inj, List.prefix_append_right_inj]
        exact List.takeWhile_prefix _
    · simp [exponent_of_ne hc] at h

theorem longest_exponent {w cs : List Char} (hw : w ∈ Lexicon.exponent) (hpre : w <+: cs) :
    w.length ≤ exponent cs := by
  obtain ⟨c, s, d, rfl, hc, hs, hd, hdigits⟩ := Lexicon.mem_exponent.1 hw
  cases cs with
  | nil => simp at hpre
  | cons x cs =>
    obtain ⟨rfl, hsd⟩ := List.cons_prefix_cons.1 hpre
    obtain ⟨s', rest, rfl, hs', hplain, heq⟩ := exponent_split hc cs
    -- Both read the same sign: a digit is none, and neither are the digits after a sign.
    have hss : s = s' := by
      obtain ⟨y, d, rfl⟩ := List.exists_cons_of_ne_nil hd
      have hy : y ≠ '+' ∧ y ≠ '-' := by
        have := hdigits y (by simp)
        constructor <;> rintro rfl <;> exact absurd this (by decide)
      rcases hs with rfl | rfl | rfl <;> rcases hs' with rfl | rfl | rfl <;>
        first
        | rfl
        | simp only [List.nil_append, List.cons_append, List.cons_prefix_cons] at hsd
          grind
        | obtain ⟨t, rfl⟩ := hsd
          simp at hplain
    subst hss
    rw [List.prefix_append_right_inj, ← List.append_nil d] at hsd
    have hle : d.length ≤ (rest.takeWhile Text.isDigit).length := by
      rcases append_prefix_cases hdigits hsd with ⟨h, -⟩ | ⟨h, -⟩
      · exact h ▸ Nat.le_refl _
      · omega
    have hpos : 0 < d.length := List.length_pos_iff.2 hd
    rw [heq, if_neg (List.length_pos_iff.1 (by omega))]
    simpa using hle

theorem length_takeWhile_le_mantissa (cs : List Char) :
    (cs.takeWhile Text.isDigit).length ≤ mantissa cs := by
  by_cases hpoint : (cs.dropWhile Text.isDigit).head? = some '.'
  · obtain ⟨rest, hrest⟩ := List.head?_eq_some_iff.1 hpoint
    rw [mantissa_of_point hrest]
    split
    · next h => simp [h.1]
    · simp
  · exact (mantissa_of_no_point hpoint).ge

/-- A word of `mantissa` may be cut short, but nothing that could be an exponent follows then. -/
theorem mantissa_cases {m x cs : List Char} (hm : m ∈ Lexicon.mantissa) (hpre : m ++ x <+: cs)
    (hx : ∀ c ∈ x.head?, c = 'e' ∨ c = 'E') :
    m.length ≤ mantissa cs ∧ (x = [] ∨ m.length = mantissa cs) := by
  have hstop : (∀ c ∈ x.head?, Text.isDigit c) → x = [] := by
    intro hdigit
    cases x with
    | nil => rfl
    | cons c x => rcases hx c rfl with rfl | rfl <;> exact absurd (hdigit _ rfl) (by decide)
  rcases Lexicon.mem_mantissa.1 hm with ⟨a, b, rfl, ha, hb, hne⟩ | ⟨-, hdigits⟩
  · rw [List.append_assoc, List.cons_append] at hpre
    rcases append_prefix_cases ha hpre with ⟨rfl, hpoint⟩ | ⟨-, hpoint⟩
    · obtain ⟨t, ht⟩ := hpoint
      rw [List.cons_append] at ht
      have hrest : b ++ x <+: b ++ x ++ t := List.prefix_append ..
      have hle : b.length ≤ ((b ++ x ++ t).takeWhile Text.isDigit).length ∧
          (x = [] ∨ b = (b ++ x ++ t).takeWhile Text.isDigit) := by
        rcases append_prefix_cases hb hrest with ⟨h, -⟩ | ⟨hlt, hdigit⟩
        · exact ⟨h ▸ Nat.le_refl _, .inr h⟩
        · exact ⟨hlt.le, .inl (hstop hdigit)⟩
      have hsome : ¬ (cs.takeWhile Text.isDigit = [] ∧
          (b ++ x ++ t).takeWhile Text.isDigit = []) := by
        rintro ⟨h₁, h₂⟩
        rw [h₂, List.length_nil, Nat.le_zero, List.length_eq_zero_iff] at hle
        exact hne.elim (· h₁) (· hle.1)
      rw [mantissa_of_point ht.symm, if_neg hsome]
      refine ⟨by simpa using hle.1, hle.2.imp id fun h => ?_⟩
      rw [← h]
    · exact absurd (hpoint '.' rfl) (by decide)
  · have htake := length_takeWhile_le_mantissa cs
    rcases append_prefix_cases hdigits hpre with ⟨rfl, hexp⟩ | ⟨hlt, hdigit⟩
    · refine ⟨htake, ?_⟩
      cases x with
      | nil => exact .inl rfl
      | cons c x =>
        obtain ⟨t, ht⟩ := hexp
        refine .inr (mantissa_of_no_point ?_).symm
        rw [← ht]
        rcases hx c rfl with rfl | rfl <;> simp
    · exact ⟨by omega, .inl (hstop hdigit)⟩

theorem number_eq (cs : List Char) :
    number cs = if mantissa cs = 0 then 0 else mantissa cs + exponent (cs.drop (mantissa cs)) := by
  simp [number]

theorem ne_nil_of_mem_mantissa {m : List Char} (hm : m ∈ Lexicon.mantissa) : m ≠ [] := by
  rcases Lexicon.mem_mantissa.1 hm with ⟨a, b, rfl, -⟩ | ⟨hne, -⟩
  · simp
  · exact hne

theorem isSpace_of_isDigit {c : Char} (h : Text.isDigit c) : isSpace c = false := by
  rw [Bool.eq_false_iff]
  intro hs
  simp only [isSpace, Bool.or_eq_true, beq_iff_eq] at hs
  rcases hs with (((rfl | rfl) | rfl) | rfl) | rfl <;> exact absurd h (by decide)

/-- A number starts with a digit or a point. -/
theorem head_of_mem_number {w : List Char} (hw : w ∈ Lexicon.number) :
    ∃ c v, w = c :: v ∧ (Text.isDigit c ∨ c = '.') := by
  obtain ⟨m, hm, x, -, rfl⟩ := hw
  rcases Lexicon.mem_mantissa.1 hm with ⟨a, b, rfl, ha, -⟩ | ⟨hne, hdigits⟩
  · cases a with
    | nil => exact ⟨'.', _, rfl, .inr rfl⟩
    | cons c a => exact ⟨c, _, rfl, .inl (ha c (by simp))⟩
  · obtain ⟨c, m, rfl⟩ := List.exists_cons_of_ne_nil hne
    exact ⟨c, _, rfl, .inl (hdigits c (by simp))⟩

theorem scans_number : Scans number Lexicon.number where
  found cs h := by
    rw [number_eq] at h ⊢
    split at h
    · omega
    · next hne =>
      obtain ⟨m, hm, ⟨rest, rfl⟩, hlen⟩ := found_mantissa (Nat.pos_of_ne_zero hne)
      rw [if_neg hne, ← hlen, List.drop_left]
      rcases Nat.eq_zero_or_pos (exponent rest) with hzero | hpos
      · exact ⟨m, ⟨m, hm, [], .inl rfl, by simp⟩, List.prefix_append .., by simp [hzero]⟩
      · obtain ⟨x, hx, hpre, hxlen⟩ := found_exponent hpos
        exact ⟨m ++ x, ⟨m, hm, x, .inr hx, rfl⟩, (List.prefix_append_right_inj _).2 hpre,
          by simp [hxlen]⟩
  longest cs w hw hpre := by
    obtain ⟨m, hm, x, hx, rfl⟩ := Language.mem_mul.1 hw
    have hpos : 0 < m.length := List.length_pos_iff.2 (ne_nil_of_mem_mantissa hm)
    have hhead : ∀ c ∈ x.head?, c = 'e' ∨ c = 'E' := by
      rcases hx with rfl | hx
      · simp
      · obtain ⟨c, s, d, rfl, hc, -⟩ := Lexicon.mem_exponent.1 hx
        simpa using hc
    obtain ⟨hle, rfl | heq⟩ := mantissa_cases hm hpre hhead
    · rw [number_eq, if_neg (by omega), List.append_nil]
      omega
    · obtain ⟨rest, rfl⟩ := hpre
      rw [number_eq, if_neg (by omega), ← heq, List.append_assoc, List.drop_left,
        List.length_append]
      rcases hx with rfl | hx
      · simp
      · exact Nat.add_le_add_left (longest_exponent hx (List.prefix_append ..)) _
  solid w hw := by
    obtain ⟨c, v, rfl, hc⟩ := head_of_mem_number hw
    refine ⟨c, v, rfl, ?_⟩
    rcases hc with hc | rfl
    · exact isSpace_of_isDigit hc
    · decide

end Terminal

/-! ## Reading at a cursor -/

/-- The position after a text. -/
def Pos.afterAll (p : Pos) (w : List Char) : Pos := w.foldl Pos.after p

namespace Cursor

/-- The text between two cursors. -/
structure Reads (c : Cursor) (w : List Char) (c' : Cursor) : Prop where
  rest : c.rest = w ++ c'.rest
  pos : c'.pos = c.pos.afterAll w

variable {c c₁ c' : Cursor} {v w : List Char}

theorem Reads.refl (c : Cursor) : c.Reads [] c := ⟨rfl, rfl⟩

theorem Reads.trans (h₁ : c.Reads v c₁) (h₂ : c₁.Reads w c') : c.Reads (v ++ w) c' where
  rest := by rw [h₁.rest, h₂.rest, List.append_assoc]
  pos := by rw [h₂.pos, h₁.pos, Pos.afterAll, Pos.afterAll, Pos.afterAll, List.foldl_append]

theorem reads_advance (h : c.rest = w ++ v) : c.Reads w (c.advance w.length) := by
  induction w generalizing c with
  | nil =>
    unfold advance
    exact Reads.refl c
  | cons x w ih =>
    obtain ⟨rest, pos⟩ := c
    subst h
    exact ⟨congrArg (x :: ·) (ih (c := ⟨w ++ v, pos.after x⟩) rfl).rest,
      (ih (c := ⟨w ++ v, pos.after x⟩) rfl).pos⟩

/-- A cursor and the text after it determine where reading gets. -/
theorem Reads.unique {c₁ c₂ : Cursor} (h₁ : c.Reads w c₁) (h₂ : c.Reads w c₂) : c₁ = c₂ := by
  have hrest : c₁.rest = c₂.rest := List.append_cancel_left (h₁.rest.symm.trans h₂.rest)
  have hpos : c₁.pos = c₂.pos := h₁.pos.trans h₂.pos.symm
  cases c₁
  cases c₂
  simp_all

theorem Reads.eq_advance (h : c.Reads w c') : c' = c.advance w.length :=
  h.unique (reads_advance h.rest)

theorem Reads.length (h : c.Reads w c') : c.rest.length = w.length + c'.rest.length := by
  rw [h.rest, List.length_append]

theorem Reads.textTo (h : c.Reads w c') : c.textTo c' = String.ofList w := by
  rw [Cursor.textTo, h.rest]
  simp

theorem reads_skip (c : Cursor) : c.Reads (c.rest.takeWhile isSpace) c.skip :=
  reads_advance (List.takeWhile_append_dropWhile ..).symm

/-- White space stands between two cursors. -/
def Blank (c c' : Cursor) : Prop :=
  ∃ w, c.Reads w c' ∧ ∀ x ∈ w, isSpace x

theorem blank_skip (c : Cursor) : c.Blank c.skip :=
  ⟨_, reads_skip c, fun _ hx => List.mem_takeWhile_imp hx⟩

/-- White space in front of anything else is skipped to its end. -/
theorem Blank.eq_skip (h : c.Blank c') (hne : c'.rest.head?.all (!isSpace ·)) : c' = c.skip := by
  obtain ⟨w, hw, hspace⟩ := h
  have hskip : c.rest.takeWhile isSpace = w := by
    rw [hw.rest, List.takeWhile_append_of_pos hspace]
    cases hrest : c'.rest with
    | nil => simp
    | cons x rest => simp_all
  exact hw.unique (hskip ▸ reads_skip c)

end Cursor

/-- A word of a language stands next, after white space and as long as it can be. -/
inductive Stands (L : Language Char) (c : Cursor) : Token → Cursor → Prop
  | mk {c₁ c' : Cursor} {w : List Char} (blank : c.Blank c₁) (reads : c₁.Reads w c') (mem : w ∈ L)
    (longest : ∀ v ∈ L, v <+: c₁.rest → v.length ≤ w.length) :
    Stands L c ⟨String.ofList w, c₁.pos⟩ c'

section

variable {t : Terminal} {L : Language Char} {c c' : Cursor} {tok : Token}

/-- A word of a terminal starts where the white space ends. -/
theorem Terminal.Scans.eq_skip (h : t.Scans L) {c₁ : Cursor} {w : List Char} (hw : w ∈ L)
    (hb : c.Blank c₁) (hr : c₁.Reads w c') : c₁ = c.skip := by
  obtain ⟨x, v, rfl, hx⟩ := h.solid w hw
  refine hb.eq_skip ?_
  simp [hr.rest, hx]

theorem Cursor.take?_eq_some_iff (h : t.Scans L) :
    c.take? t = some (tok, c') ↔ Stands L c tok c' := by
  constructor
  · intro htake
    simp only [take?, beq_iff_eq] at htake
    split at htake
    · cases htake
    · next hne =>
      obtain ⟨w, hw, hpre, hlen⟩ := h.found _ (Nat.pos_of_ne_zero hne)
      cases htake
      rw [← hlen, ← List.prefix_iff_eq_take.1 hpre]
      obtain ⟨v, hv⟩ := hpre
      exact .mk (blank_skip c) (reads_advance hv.symm) hw fun u hu hpre =>
        hlen ▸ h.longest _ u hu hpre
  · rintro ⟨hb, hr, hw, hlongest⟩
    cases h.eq_skip hw hb hr
    obtain ⟨x, v, rfl, -⟩ := h.solid _ hw
    have hpre : x :: v <+: c.skip.rest := ⟨_, hr.rest.symm⟩
    have hle := h.longest _ _ hw hpre
    have hpos : 0 < t c.skip.rest := Nat.lt_of_lt_of_le (by simp) hle
    -- The terminal finds a word that is no longer than the longest, so it finds this one.
    have hlen : t c.skip.rest = (x :: v).length := by
      obtain ⟨u, hu, hupre, hulen⟩ := h.found _ hpos
      exact Nat.le_antisymm (hulen ▸ hlongest u hu hupre) hle
    simp only [take?, beq_iff_eq]
    rw [if_neg (by omega), hlen, ← hr.eq_advance, ← List.prefix_iff_eq_take.1 hpre]

theorem Cursor.take_eq_ok_iff (h : t.Scans L) :
    c.take t = .ok (tok, c') ↔ Stands L c tok c' := by
  rw [← take?_eq_some_iff h, take]
  cases c.take? t <;> simp

theorem Stands.unique (h : t.Scans L) {tok₁ tok₂ : Token} {c₁ c₂ : Cursor}
    (h₁ : Stands L c tok₁ c₁) (h₂ : Stands L c tok₂ c₂) : tok₁ = tok₂ ∧ c₁ = c₂ := by
  rw [← Cursor.take?_eq_some_iff h] at h₁ h₂
  rw [h₁] at h₂
  simpa using h₂

theorem Stands.reads (hs : Stands L c tok c') : ∃ w, c.Reads w c' := by
  obtain ⟨⟨b, hb, -⟩, hr, -⟩ := hs
  exact ⟨_, hb.trans hr⟩

theorem Stands.length_le (hs : Stands L c tok c') : c'.rest.length ≤ c.rest.length := by
  obtain ⟨w, hw⟩ := hs.reads
  have := hw.length
  omega

theorem Stands.length_lt (h : t.Scans L) (hs : Stands L c tok c') :
    c'.rest.length < c.rest.length := by
  obtain ⟨⟨b, hb, -⟩, hr, hw, -⟩ := hs
  obtain ⟨x, v, rfl, -⟩ := h.solid _ hw
  have := (hb.trans hr).length
  simp only [List.length_append, List.length_cons] at this
  omega

/-- The text of a terminal without the white space in front of it. -/
theorem Stands.reads_skip (h : t.Scans L) (hs : Stands L c tok c') :
    tok.pos = c.skip.pos ∧ ∃ w, c.skip.Reads w c' := by
  obtain ⟨hb, hr, hw, -⟩ := hs
  cases h.eq_skip hw hb hr
  exact ⟨rfl, _, hr⟩

/-- The next character that is not white space. -/
def Cursor.peek (c : Cursor) : Option Char := c.skip.rest.head?

theorem Stands.peek (h : t.Scans L) (hs : Stands L c tok c') :
    ∃ x v, c.peek = some x ∧ x :: v ∈ L ∧ tok.text = String.ofList (x :: v) := by
  obtain ⟨hb, hr, hw, -⟩ := hs
  cases h.eq_skip hw hb hr
  obtain ⟨x, v, rfl, -⟩ := h.solid _ hw
  exact ⟨x, v, by rw [Cursor.peek, hr.rest]; rfl, hw, rfl⟩

end

theorem Cursor.finish_eq_ok_iff {c : Cursor} : c.finish = .ok ⟨⟩ ↔ ∀ x ∈ c.rest, isSpace x := by
  have hskip := (reads_skip c).rest
  constructor
  · intro h
    have hnil : c.skip.rest = [] := by
      unfold finish at h
      split at h
      · next hempty => simpa using hempty
      · cases h
    rw [hnil, List.append_nil] at hskip
    rw [hskip]
    exact fun x hx => List.mem_takeWhile_imp hx
  · intro h
    rw [List.takeWhile_eq_self_iff.2 h] at hskip
    have hnil : c.skip.rest = [] := by simpa using hskip
    simp [finish, hnil]

end IndexNotation
