import ThreeAddress.Proofs.Json.Tokens
/-!
# Values read back

What `compact` writes, `parse?` reads: `parse?_compact`. Its conditions are those of the reader, that numbers are
integers of 64 bits and that containers do not nest too deep (`Fits`). The induction goes over the nesting. For a
value in the middle of a text it says that the parser comes to the end of its text with the value completed, from
whatever state it was waited for in (`Parser.Awaits`, `Parser.ReadsBack`); the items of an array and the members of an
object are read one after another on the way (`Parser.readOn_items`, `Parser.readOn_members`).
-/

namespace ThreeAddress.Json

/-- The numbers are integers of 64 bits, and no more than so many containers are around one another. -/
inductive Fits : Nat → Json → Prop where
  | null {room : Nat} : Fits room .null
  | bool {room : Nat} (b : Bool) : Fits room (.bool b)
  | number {room : Nat} {n : Number} (h : n.Wide) : Fits room (.number n)
  | string {room : Nat} (s : String) : Fits room (.string s)
  | array {room : Nat} {items : List Json} (h : ∀ v ∈ items, Fits room v) : Fits (room + 1) (.array items)
  | object {room : Nat} {members : List (String × Json)} (h : ∀ m ∈ members, Fits room m.2) :
    Fits (room + 1) (.object members)

namespace Parser

variable {limit room : Nat} {state : State} {stack : List Container} {rest : List Char}

/-- The state waits for a value within the containers of a stack; it may wait for the end of an array as well. -/
def Awaits (limit : Nat) (state : State) (stack : List Container) : Prop :=
  ∀ t, t ≠ .closeArray → step? limit state t = start? limit stack t

theorem awaits_value : Awaits limit (.value stack) stack := fun _ _ => rfl

theorem awaits_firstItem : Awaits limit (.firstItem stack) (.array [] :: stack) := by
  intro t ht
  cases t with
  | closeArray => exact absurd rfl ht
  | _ => rfl

theorem Awaits.readToken_eq (hstate : Awaits limit state stack) {t : Token} (ht : t ≠ .closeArray) {next : State}
    (hnext : start? limit stack t = some next) : readToken limit state t rest = readOn limit next .ready rest := by
  rw [readToken, hstate t ht, hnext, Option.bind_some]

/-- Wherever a value is waited for and has room, its text is read as the value. -/
def ReadsBack (limit room : Nat) (v : Json) : Prop :=
  ∀ ⦃state : State⦄ ⦃stack : List Container⦄ ⦃rest : List Char⦄, Awaits limit state stack →
    stack.length + room ≤ limit → Ends rest →
    readOn limit state .ready (v.compact.toList ++ rest) = readOn limit (complete v stack) .ready rest

theorem ends_cons {c : Char} (hn : Lexer.isNumeric c = false) (hl : ¬ IsLetter c) : Ends (c :: rest) := by
  intro d hd
  cases hd
  exact ⟨hn, hl⟩

theorem toList_intercalate_cons (s : String) (ss : List String) :
    (",".intercalate (s :: ss)).toList =
      s.toList ++ (if ss.isEmpty then [] else ',' :: (",".intercalate ss).toList) := by
  cases ss with
  | nil => simp
  | cons t ts => simp [String.toList_intercalate]

/-- The items of an array, up to its end. -/
theorem readOn_items {v : Json} {vs : List Json} (hvs : ∀ w ∈ v :: vs, ReadsBack limit room w)
    (hroom : stack.length + (room + 1) ≤ limit) {items : List Json}
    (hstate : Awaits limit state (.array items :: stack)) :
    readOn limit state .ready ((",".intercalate (compactItems (v :: vs))).toList ++ ']' :: rest) =
      readOn limit (complete (.array (items.reverse ++ v :: vs)) stack) .ready rest := by
  have hlength : (Container.array items :: stack).length + room ≤ limit := by
    simp only [List.length_cons]
    omega
  have hv := hvs v List.mem_cons_self
  induction vs generalizing state v items with
  | nil =>
    simp only [compactItems, toList_intercalate_cons, List.isEmpty_nil, if_true, List.append_nil]
    rw [hv hstate hlength (ends_cons rfl (by simp [IsLetter])), readOn_cons_token (t := .closeArray) rfl]
    simp [readToken, complete, step?]
  | cons w ws ih =>
    rw [compactItems, toList_intercalate_cons]
    simp only [compactItems, List.isEmpty_cons, Bool.false_eq_true, if_false, List.append_assoc, List.cons_append]
    rw [hv hstate hlength (ends_cons rfl (by simp [IsLetter])), readOn_cons_token (t := .comma) rfl]
    have hread : readOn limit (.value (.array (v :: items) :: stack)) .ready
        ((",".intercalate (compactItems (w :: ws))).toList ++ ']' :: rest) =
          readOn limit (complete (.array ((v :: items).reverse ++ w :: ws)) stack) .ready rest :=
      ih (fun u hu => hvs u (.tail _ hu)) awaits_value (by simpa using hlength) (hvs w (by simp))
    rw [compactItems] at hread
    simpa [readToken, complete, step?] using hread

/-- A member of an object. -/
theorem readOn_member {m : String × Json} (hm : ReadsBack limit room m.2)
    (hroom : stack.length + (room + 1) ≤ limit) (hrest : Ends rest) {members : List (String × Json)}
    (hstate : ∀ name, step? limit state (.string name) = some (.colon members name stack)) :
    readOn limit state .ready ((quoted m.1 ++ ":" ++ m.2.compact).toList ++ rest) =
      readOn limit (.afterMember (m :: members) stack) .ready rest := by
  have hlength : (Container.object members m.1 :: stack).length + room ≤ limit := by
    simp only [List.length_cons]
    omega
  have htext : (quoted m.1 ++ ":" ++ m.2.compact).toList ++ rest =
      (quoted m.1).toList ++ (':' :: (m.2.compact.toList ++ rest)) := by simp
  rw [htext, readOn_quoted, readToken, hstate, Option.bind_some, readOn_cons_token (t := .colon) rfl]
  exact hm awaits_value hlength hrest

/-- The members of an object, up to its end. -/
theorem readOn_members {m : String × Json} {ms : List (String × Json)}
    (hms : ∀ n ∈ m :: ms, ReadsBack limit room n.2) (hroom : stack.length + (room + 1) ≤ limit)
    {members : List (String × Json)}
    (hstate : ∀ name, step? limit state (.string name) = some (.colon members name stack)) :
    readOn limit state .ready ((",".intercalate (compactMembers (m :: ms))).toList ++ '\x7d' :: rest) =
      readOn limit (complete (.object (members.reverse ++ m :: ms)) stack) .ready rest := by
  have hm := hms m List.mem_cons_self
  induction ms generalizing state m members with
  | nil =>
    simp only [compactMembers, toList_intercalate_cons, List.isEmpty_nil, if_true, List.append_nil]
    rw [readOn_member hm hroom (ends_cons rfl (by simp [IsLetter])) hstate, readOn_cons_token (t := .closeObject) rfl]
    simp [readToken, step?]
  | cons n ns ih =>
    rw [compactMembers, toList_intercalate_cons]
    simp only [compactMembers, List.isEmpty_cons, Bool.false_eq_true, if_false, List.append_assoc, List.cons_append]
    rw [readOn_member hm hroom (ends_cons rfl (by simp [IsLetter])) hstate, readOn_cons_token (t := .comma) rfl]
    have hread : readOn limit (.name (m :: members) stack) .ready
        ((",".intercalate (compactMembers (n :: ns))).toList ++ '\x7d' :: rest) =
          readOn limit (complete (.object ((m :: members).reverse ++ n :: ns)) stack) .ready rest :=
      ih (fun u hu => hms u (.tail _ hu)) (fun _ => rfl) (hms n (by simp))
    rw [compactMembers] at hread
    simpa [readToken, step?] using hread

/-- Every value that fits reads back. -/
theorem readsBack_of_fits {v : Json} (h : Fits room v) : ReadsBack limit room v := by
  induction h with
  | null =>
    intro state stack rest hstate hroom hrest
    rw [← hstate.readToken_eq (t := .null) nofun rfl]
    exact readOn_letters 'n' ['u', 'l', 'l'] rfl (by simp [IsLetter]) rfl hrest
  | bool b =>
    intro state stack rest hstate hroom hrest
    rw [← hstate.readToken_eq (t := .bool b) nofun rfl]
    cases b with
    | true => exact readOn_letters 't' ['r', 'u', 'e'] rfl (by simp [IsLetter]) rfl hrest
    | false => exact readOn_letters 'f' ['a', 'l', 's', 'e'] rfl (by simp [IsLetter]) rfl hrest
  | @number room n h =>
    intro state stack rest hstate hroom hrest
    rw [← hstate.readToken_eq (t := .number n) nofun rfl]
    cases n with
    | real x => exact h.elim
    | integer n => exact readOn_integer h hrest
  | string s =>
    intro state stack rest hstate hroom hrest
    rw [← hstate.readToken_eq (t := .string s) nofun rfl]
    exact readOn_quoted s
  | @array room items h ih =>
    intro state stack rest hstate hroom hrest
    have hopen : start? limit stack .openArray = some (.firstItem stack) := if_pos (by omega)
    have htext : (array items).compact.toList ++ rest =
        '[' :: ((",".intercalate (compactItems items)).toList ++ ']' :: rest) := by simp [compact]
    rw [htext, readOn_cons_token (t := .openArray) rfl, hstate.readToken_eq (by simp) hopen]
    cases items with
    | nil => exact readOn_cons_token (t := .closeArray) rfl
    | cons v vs => exact readOn_items (fun w hw => ih w hw) hroom awaits_firstItem
  | @object room members h ih =>
    intro state stack rest hstate hroom hrest
    have hopen : start? limit stack .openObject = some (.firstMember stack) := if_pos (by omega)
    have htext : (object members).compact.toList ++ rest =
        '\x7b' :: ((",".intercalate (compactMembers members)).toList ++ '\x7d' :: rest) := by simp [compact]
    rw [htext, readOn_cons_token (t := .openObject) rfl, hstate.readToken_eq (by simp) hopen]
    cases members with
    | nil => exact readOn_cons_token (t := .closeObject) rfl
    | cons m ms =>
      have hstate : ∀ name, step? limit (.firstMember stack) (.string name) = some (.colon [] name stack) :=
        fun _ => rfl
      exact readOn_members (fun n hn => ih n hn) hroom hstate

end Parser

/-- A value that fits is read from its text. -/
theorem parse?_compact {limit : Nat} {v : Json} (h : Fits limit v) : parse? limit v.compact = some v := by
  have hread : Parser.readOn limit (.value []) .ready (v.compact.toList ++ []) =
      Parser.readOn limit (.done v) .ready [] :=
    Parser.readsBack_of_fits h Parser.awaits_value (Nat.le_of_eq (Nat.zero_add limit)) nofun
  rw [List.append_nil] at hread
  exact hread

end ThreeAddress.Json
