import Mathlib.Data.List.Basic
import Mathlib.Data.List.TakeWhile
import Mathlib.Data.Option.Basic
import ThreeAddress.Json.Parser
import ThreeAddress.Json.Printer
/-!
# Tokens read back

The lexer runs over what the printer writes and finds the token that was written: an integer of 64 bits from its
decimal (`Number.read?_text`), a string from its quotes and escapes, a word from its letters. The statements leave
open what follows. `Parser.readOn` is lexer and parser in the middle of a text, and each statement says that it comes
to the rest of the text with the token read (`Parser.readOn_quoted`, `Parser.readOn_integer`,
`Parser.readOn_letters`). A number or a word has no closing mark of its own; it needs a rest that does not go on with
it (`Parser.Ends`).
-/

namespace ThreeAddress.Json

/-! ## Decimals -/

namespace Number

/-- An integer of 64 bits, signed or not. -/
def Wide : Number → Prop
  | integer n => -9223372036854775808 ≤ n ∧ n < 18446744073709551616
  | real _ => False

theorem text_integer (n : Int) :
    (integer n).text.toList = (if n < 0 then ['-'] else []) ++ Nat.toDigits 10 n.natAbs := by
  simp only [text, Int.toString_eq_repr, Int.repr_eq_if]
  by_cases hn : n < 0
  · have habs : (-n).toNat = n.natAbs := by omega
    simp [hn, habs, Int.not_le.2 hn]
  · have habs : n.toNat = n.natAbs := by omega
    simp [hn, habs, Int.not_lt.1 hn]

theorem digit_eq_zero {c : Char} (h : c.isDigit = true) : digit c = 0 ↔ c = '0' := by
  simp only [Char.isDigit, Bool.and_eq_true, decide_eq_true_eq, UInt32.le_iff_toNat_le] at h
  have hzero : ('0' : Char).toNat = 48 := rfl
  have hlow : 48 ≤ c.toNat := h.1
  rw [digit, hzero, Char.ext_iff, ← UInt32.toNat_inj]
  change c.toNat - 48 = 0 ↔ c.toNat = 48
  omega

/-- A decimal begins with a zero only if it is zero. -/
theorem head?_toDigits_ne {k : Nat} (hk : 0 < k) : (Nat.toDigits 10 k).head? ≠ some '0' := by
  induction k using Nat.strongRecOn with
  | ind k ih =>
    rcases Nat.lt_or_ge k 10 with hlt | hge
    · rw [Nat.toDigits_of_lt_base hlt]
      simp
      omega
    · rw [Nat.toDigits_of_base_le (by decide) hge, List.head?_append_of_ne_nil _ Nat.toDigits_ne_nil]
      exact ih (k / 10) (by omega) (by omega)

theorem ofDigits_toDigits (k : Nat) : ofDigits ((Nat.toDigits 10 k).map digit) = k := by
  conv => rhs; rw [← Nat.ofDigitChars_ten_toDigits (n := k)]
  rw [ofDigits, List.foldl_map, Nat.ofDigitChars_eq_foldl]
  rfl

theorem le_foldl_digits (ds : List Nat) (n : Nat) : n ≤ ds.foldl (fun n d => 10 * n + d) n := by
  induction ds generalizing n with
  | nil => exact Nat.le_refl n
  | cons d ds ih => exact Nat.le_trans (by omega) (ih (10 * n + d))

/-- A significand takes up all digits if the number that they spell fits. -/
theorem absorb_of_fits {ds : List Nat} {n : Nat} (h : ds.foldl (fun n d => 10 * n + d) n < UInt64.size) :
    absorb n ds = (ds.foldl (fun n d => 10 * n + d) n, []) := by
  induction ds generalizing n with
  | nil => rfl
  | cons d ds ih =>
    have hle := le_foldl_digits ds (10 * n + d)
    rw [List.foldl_cons] at h
    rw [absorb, if_pos (Nat.lt_of_le_of_lt hle h), ih h, List.foldl_cons]

/-- The digits of a natural number, with a sign or without, are a literal. -/
theorem ofChars?_toDigits (negative : Bool) (k : Nat) :
    Literal.ofChars? ((if negative then ['-'] else []) ++ Nat.toDigits 10 k) =
      some ⟨negative, (Nat.toDigits 10 k).map digit, none, none⟩ := by
  have hdigit : ∀ c ∈ Nat.toDigits 10 k, c.isDigit = true :=
    fun c hc => Nat.isDigit_of_mem_toDigits (by decide) (by decide) hc
  have hdigits : digits (Nat.toDigits 10 k) = ((Nat.toDigits 10 k).map digit, []) := by
    rw [digits, List.takeWhile_eq_self_iff.2 hdigit, List.dropWhile_eq_nil_iff.2 hdigit]
  obtain ⟨c, cs, hcs⟩ := List.exists_cons_of_ne_nil (Nat.toDigits_ne_nil (b := 10) (n := k))
  have hc : c.isDigit = true := hdigit c (by simp [hcs])
  -- Only zero begins with the digit zero, and it has no other digit.
  have hguard : (guard (!((Nat.toDigits 10 k).map digit).isEmpty && (((Nat.toDigits 10 k).map digit).head? != some 0 ||
      ((Nat.toDigits 10 k).map digit).length == 1)) : Option Unit) = some () := by
    refine if_pos ?_
    rcases Nat.eq_zero_or_pos k with rfl | hk
    · rfl
    · have hhead := head?_toDigits_ne hk
      rw [hcs] at hhead ⊢
      have hne : digit c ≠ 0 := fun h => hhead (by rw [(digit_eq_zero hc).1 h]; rfl)
      simp [hne]
  cases negative with
  | true =>
    rw [if_pos rfl, List.singleton_append, Literal.ofChars?]
    dsimp only
    rw [hdigits]
    dsimp only
    rw [hguard]
    rfl
  | false =>
    rw [if_neg Bool.false_ne_true, List.nil_append, Literal.ofChars?]
    · dsimp only
      rw [hdigits]
      dsimp only
      rw [hguard]
      rfl
    · intro ds hds
      cases hcs.symm.trans hds
      cases hc

/-- An integer of 64 bits reads back from its decimal. -/
theorem read?_text {n : Int} (h : (integer n).Wide) : read? (integer n).text.toList = some (integer n) := by
  have hlit := ofChars?_toDigits (decide (n < 0)) n.natAbs
  simp only [decide_eq_true_eq] at hlit
  obtain ⟨hlow, hhigh⟩ := h
  have habsorb : absorb 0 ((Nat.toDigits 10 n.natAbs).map digit) = (n.natAbs, []) := by
    have hfits : ofDigits ((Nat.toDigits 10 n.natAbs).map digit) < UInt64.size := by
      rw [ofDigits_toDigits, UInt64.size]
      omega
    have habsorb := absorb_of_fits hfits
    rwa [← ofDigits, ofDigits_toDigits] at habsorb
  rw [read?, text_integer, hlit, Option.bind_some, Literal.value?]
  simp only [habsorb, Option.getD_none, absorb]
  clear hlit habsorb
  generalize hk : n.natAbs = k
  by_cases hn : n < 0
  · have hpos : 1 ≤ k := by omega
    have hsigned : k ≤ 9223372036854775808 := by omega
    have habs : -(k : Int) = n := by omega
    simp [hn, hpos, hsigned, habs]
  · have habs : (k : Int) = n := by omega
    simp [hn, habs]

end Number

/-! ## Lexer and parser in the middle of a text -/

namespace Parser

open Lexer (Mode)

variable {limit : Nat} {state : State} {mode m : Mode} {c : Char} {cs rest : List Char} {t : Token}

/-- Reads the rest of a text. -/
def readOn (limit : Nat) (state : State) (mode : Mode) (cs : List Char) : Option Json :=
  (Lexer.scan? mode cs).bind (run? limit state)

/-- Takes a token and reads the rest of a text. -/
def readToken (limit : Nat) (state : State) (t : Token) (cs : List Char) : Option Json :=
  (step? limit state t).bind fun state => readOn limit state .ready cs

theorem scan?_cons {ts : List Token} (h : Lexer.step? mode c = some (m, ts)) :
    Lexer.scan? mode (c :: cs) = (Lexer.scan? m cs).map (ts ++ ·) := by
  rw [Lexer.scan?, h]
  cases hcs : Lexer.scan? m cs <;> simp [hcs]

/-- A character within a token. -/
theorem readOn_cons (h : Lexer.step? mode c = some (m, [])) :
    readOn limit state mode (c :: cs) = readOn limit state m cs := by
  rw [readOn, readOn, scan?_cons h]
  cases Lexer.scan? m cs <;> rfl

theorem bind_scan?_map_cons :
    ((Lexer.scan? .ready cs).map (t :: ·)).bind (run? limit state) = readToken limit state t cs := by
  cases hcs : Lexer.scan? .ready cs with
  | none => cases hstep : step? limit state t <;> simp [readToken, readOn, hstep, hcs]
  | some ts => simp [readToken, readOn, hcs, run?]

/-- A character that closes a token. -/
theorem readOn_cons_token (h : Lexer.step? mode c = some (.ready, [t])) :
    readOn limit state mode (c :: cs) = readToken limit state t cs := by
  rw [readOn, scan?_cons h]
  exact bind_scan?_map_cons

/-- A token that the text ends with, or that ends where a character comes that cannot go on. -/
theorem readOn_of_finish (hfinish : Lexer.finish? mode = some [t])
    (hstep : ∀ c ∈ rest.head?, Lexer.step? mode c = (Lexer.start? c).map fun r => (r.1, t :: r.2)) :
    readOn limit state mode rest = readToken limit state t rest := by
  have hscan : Lexer.scan? mode rest = (Lexer.scan? .ready rest).map (t :: ·) := by
    cases rest with
    | nil => exact hfinish
    | cons c cs =>
      have hmode := hstep c rfl
      have hready : Lexer.step? .ready c = Lexer.start? c := rfl
      cases hc : Lexer.start? c with
      | none =>
        rw [hc] at hmode hready
        simp [Lexer.scan?, hmode, hready]
      | some r =>
        rw [hc] at hmode hready
        rw [scan?_cons hmode, scan?_cons hready, Option.map_map]
        rfl
  rw [readOn, hscan]
  exact bind_scan?_map_cons

/-! ## Strings -/

theorem hexDigit?_hexDigit (n : Nat) : Lexer.hexDigit? (hexDigit n) = some (n % 16) := by
  have h : ∀ k < 16, Lexer.hexDigit? (Nat.digitChar k) = some k := by decide
  exact h (n % 16) (Nat.mod_lt n (by decide))

/-- A control character is read from its code. -/
theorem readOn_control (hc : c.toNat < 32) (read : List Char) :
    readOn limit state (.string read)
        (['\\', 'u', '0', '0', hexDigit (c.toNat / 16), hexDigit c.toNat] ++ rest) =
      readOn limit state (.string (c :: read)) rest := by
  have hcode : 16 * (c.toNat / 16 % 16) + c.toNat % 16 = c.toNat := by omega
  have hhigh : Lexer.isHighHalf c.toNat = false := by simp [Lexer.isHighHalf]; omega
  have hlow : Lexer.isLowHalf c.toNat = false := by simp [Lexer.isLowHalf]; omega
  simp only [List.cons_append, List.nil_append]
  rw [readOn_cons (m := .escape read) rfl, readOn_cons (m := .hex read none []) rfl,
    readOn_cons (m := .hex read none [0]) rfl, readOn_cons (m := .hex read none [0, 0]) rfl,
    readOn_cons (m := .hex read none [0, 0, c.toNat / 16 % 16]), readOn_cons]
  · simp [Lexer.step?, hexDigit?_hexDigit, Lexer.afterHex?, hcode, hhigh, hlow]
  · simp [Lexer.step?, hexDigit?_hexDigit]

/-- A character is read as it stands in a string. -/
theorem readOn_escapeChar (c : Char) (read : List Char) :
    readOn limit state (.string read) (escapeChar c ++ rest) = readOn limit state (.string (c :: read)) rest := by
  have hescape : ∀ e, Lexer.escaped? e = some c → e ≠ 'u' →
      readOn limit state (.string read) ('\\' :: e :: rest) = readOn limit state (.string (c :: read)) rest := by
    intro e he hu
    rw [readOn_cons (m := .escape read) rfl, readOn_cons]
    simp [Lexer.step?, he, hu]
  have hcode : ∀ n, c.toNat = n → c = Char.ofNat n := by
    rintro n rfl
    exact (Char.ofNat_toNat c).symm
  unfold escapeChar
  split_ifs with h₁ h₂ h₃ h₄ h₅ h₆ h₇ h₈
  · exact hescape '"' (by rw [h₁]; rfl) (by decide)
  · exact hescape '\\' (by rw [h₂]; rfl) (by decide)
  · exact hescape 'n' (by rw [h₃]; rfl) (by decide)
  · exact hescape 'r' (by rw [h₄]; rfl) (by decide)
  · exact hescape 't' (by rw [h₅]; rfl) (by decide)
  · exact hescape 'b' (by rw [hcode 8 h₆]; rfl) (by decide)
  · exact hescape 'f' (by rw [hcode 12 h₇]; rfl) (by decide)
  · exact readOn_control h₈ read
  · rw [List.singleton_append, readOn_cons]
    simp [Lexer.step?, h₁, h₂, h₈]

theorem readOn_flatMap_escapeChar (cs read : List Char) :
    readOn limit state (.string read) (cs.flatMap escapeChar ++ rest) =
      readOn limit state (.string (cs.reverse ++ read)) rest := by
  induction cs generalizing read with
  | nil => rfl
  | cons c cs ih => rw [List.flatMap_cons, List.append_assoc, readOn_escapeChar, ih]; simp

/-- A string is read from between its quotes. -/
theorem readOn_quoted (s : String) :
    readOn limit state .ready ((quoted s).toList ++ rest) = readToken limit state (.string s) rest := by
  have htext : (quoted s).toList ++ rest = '"' :: (s.toList.flatMap escapeChar ++ '"' :: rest) := by
    simp [quoted]
  rw [htext, readOn_cons (m := .string []) rfl, readOn_flatMap_escapeChar,
    readOn_cons_token (t := .string s)]
  simp [Lexer.step?]

/-! ## Words and numbers -/

def IsLetter (c : Char) : Prop := 'a' ≤ c ∧ c ≤ 'z'

/-- What follows a word or a number does not go on with it. -/
def Ends (rest : List Char) : Prop :=
  ∀ c ∈ rest.head?, Lexer.isNumeric c = false ∧ ¬ IsLetter c

theorem readOn_word {read : List Char} (hcs : ∀ c ∈ cs, IsLetter c)
    (ht : Lexer.word? (read.reverse ++ cs) = some t) (hrest : Ends rest) :
    readOn limit state (.word read) (cs ++ rest) = readToken limit state t rest := by
  induction cs generalizing read with
  | nil =>
    rw [List.append_nil] at ht
    refine readOn_of_finish (by simp [Lexer.finish?, ht]) fun c hc => ?_
    have hc : ¬ ('a' ≤ c ∧ c ≤ 'z') := (hrest c hc).2
    simp only [Lexer.step?, Bool.and_eq_true, decide_eq_true_eq, hc, if_false, ht]
    cases Lexer.start? c <;> rfl
  | cons c cs ih =>
    have hc : 'a' ≤ c ∧ c ≤ 'z' := hcs c List.mem_cons_self
    rw [List.cons_append, readOn_cons (m := .word (c :: read)) (by simp only [Lexer.step?, hc]; rfl)]
    exact ih (fun d hd => hcs d (.tail _ hd)) (by simpa using ht)

/-- A word is read from its letters. -/
theorem readOn_letters (c : Char) (cs : List Char) (hstart : Lexer.step? .ready c = some (.word [c], []))
    (hcs : ∀ c ∈ cs, IsLetter c) (ht : Lexer.word? (c :: cs) = some t) (hrest : Ends rest) :
    readOn limit state .ready (c :: cs ++ rest) = readToken limit state t rest := by
  rw [List.cons_append, readOn_cons hstart]
  exact readOn_word hcs ht hrest

theorem readOn_number {read : List Char} {n : Number} (hcs : ∀ c ∈ cs, Lexer.isNumeric c = true)
    (hn : Number.read? (read.reverse ++ cs) = some n) (hrest : Ends rest) :
    readOn limit state (.number read) (cs ++ rest) = readToken limit state (.number n) rest := by
  induction cs generalizing read with
  | nil =>
    rw [List.append_nil] at hn
    refine readOn_of_finish (by simp [Lexer.finish?, hn]) fun c hc => ?_
    simp only [Lexer.step?, (hrest c hc).1, Bool.false_eq_true, if_false, hn]
    cases Lexer.start? c <;> rfl
  | cons c cs ih =>
    have hc := hcs c List.mem_cons_self
    rw [List.cons_append, readOn_cons (m := .number (c :: read)) (by simp only [Lexer.step?, hc]; rfl)]
    exact ih (fun d hd => hcs d (.tail _ hd)) (by simpa using hn)

theorem start?_of_isDigit (hc : c.isDigit = true) : Lexer.start? c = some (.number [c], []) := by
  have hne : ∀ d : Char, d.isDigit = false → c ≠ d := fun d hd h => by simp [← h, hc] at hd
  have hblank : Lexer.isBlank c = false := by
    simp [Lexer.isBlank, hne ' ' rfl, hne '\n' rfl, hne '\t' rfl, hne '\r' rfl]
  simp [Lexer.start?, hblank, hne '"' rfl, hc]

/-- An integer is read from its decimal. -/
theorem readOn_integer {n : Int} (hn : (Number.integer n).Wide) (hrest : Ends rest) :
    readOn limit state .ready ((Number.integer n).text.toList ++ rest) =
      readToken limit state (.number (.integer n)) rest := by
  have hread := Number.read?_text hn
  have hnumeric : ∀ c ∈ (Number.integer n).text.toList, c.isDigit = true ∨ c = '-' := by
    intro c hc
    rw [Number.text_integer, List.mem_append] at hc
    rcases hc with hc | hc
    · split at hc
      · exact .inr (List.mem_singleton.1 hc)
      · cases hc
    · exact .inl (Nat.isDigit_of_mem_toDigits (by decide) (by decide) hc)
  cases hcs : (Number.integer n).text.toList with
  | nil =>
    rw [hcs] at hread
    cases hread
  | cons c cs =>
    rw [hcs] at hread hnumeric
    have hstart : Lexer.step? .ready c = some (.number [c], []) := by
      rcases hnumeric c List.mem_cons_self with hc | rfl
      · exact start?_of_isDigit hc
      · rfl
    rw [List.cons_append, readOn_cons hstart]
    refine readOn_number (fun d hd => ?_) hread hrest
    rcases hnumeric d (.tail _ hd) with hd | rfl
    · simp [Lexer.isNumeric, hd]
    · rfl

end Parser

end ThreeAddress.Json
