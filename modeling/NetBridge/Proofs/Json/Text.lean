import Mathlib.Data.List.TakeDrop
import Mathlib.Tactic.IntervalCases
import NetBridge.Json.Printer
import NetBridge.Json.Reader

/-! # Text that reads back

What is printed of a value with a text of its own reads as that value. Each reader takes
exactly what was printed and leaves the rest, whatever it is, as long as it does not go on
with a number. -/
namespace NetBridge.Json

/-- Values with a text of their own. -/
inductive Plain : Json → Prop where
  | null : Plain null
  | bool (b : Bool) : Plain (bool b)
  | nat {n : Nat} (fits : n < 2 ^ 64) : Plain (nat n)
  | text (s : String) : Plain (text s)
  | array {items : List Json} (plain : ∀ j ∈ items, Plain j) : Plain (array items)
  | object {entries : List (String × Json)} (plain : ∀ p ∈ entries, Plain p.2) :
    Plain (object entries)

attribute [simp] Plain.null Plain.bool Plain.text

@[simp] theorem plain_array {items : List Json} : Plain (array items) ↔ ∀ j ∈ items, Plain j :=
  ⟨fun h => by cases h; assumption, .array⟩

@[simp] theorem plain_object {entries : List (String × Json)} :
    Plain (object entries) ↔ ∀ p ∈ entries, Plain p.2 :=
  ⟨fun h => by cases h; assumption, .object⟩

theorem Plain.variant {name : String} {entries : List (String × Json)}
    (plain : ∀ p ∈ entries, Plain p.2) : Plain (Json.object [(name, Json.object entries)]) := by
  simpa using plain

/-- The characters that a letter after a backslash stands for. -/
def lettered : List Char := ['"', '\\', '\n', '\r', '\t', '\x08', '\x0c']

theorem escape_lettered :
    ∀ c ∈ lettered, ∃ e, escape c = ['\\', e] ∧ e ≠ 'u' ∧ escaped? e = some c := by
  simp only [lettered, List.forall_mem_cons]
  exact ⟨⟨'"', rfl, by decide, rfl⟩, ⟨'\\', rfl, by decide, rfl⟩, ⟨'n', rfl, by decide, rfl⟩,
    ⟨'r', rfl, by decide, rfl⟩, ⟨'t', rfl, by decide, rfl⟩, ⟨'b', rfl, by decide, rfl⟩,
    ⟨'f', rfl, by decide, rfl⟩, by simp⟩

theorem escape_unlettered {c : Char} (h : c ∉ lettered) : escape c = if c.toNat < 32 then
    ['\\', 'u', '0', '0', hexDigit (c.toNat / 16), hexDigit (c.toNat % 16)] else [c] := by
  simp only [lettered, List.mem_cons, List.not_mem_nil, not_or] at h
  obtain ⟨quote, backslash, n, r, t, b, f, -⟩ := h
  simp only [escape, quote, backslash, n, r, t, b, f, if_false]

theorem hexUnit?_control : ∀ n < 32,
    hexUnit? '0' '0' (hexDigit (n / 16)) (hexDigit (n % 16)) = some n := by decide

/-- A number below the surrogates never takes the next piece for its second half. -/
theorem assemble_control {code : Nat} (h : code < 32) (ps : List Piece) :
    assemble (.unit code :: ps) = (assemble ps).map (Char.ofNat code :: ·) := by
  have leading : isLeading code = false := by simp [isLeading]; omega
  have trailing : isTrailing code = false := by simp [isTrailing]; omega
  match ps with
  | [] | .char _ :: _ | .unit _ :: _ => simp [assemble, leading, trailing]

/-- What is printed of one character is one piece, and the piece is that character. -/
theorem pieces_escape (c : Char) : ∃ p,
    (∀ cs ps rest, pieces cs = some (ps, rest) →
      pieces (escape c ++ cs) = some (p :: ps, rest)) ∧
    ∀ ps, assemble (p :: ps) = (assemble ps).map (c :: ·) := by
  by_cases hl : c ∈ lettered
  · obtain ⟨e, hc, hu, he⟩ := escape_lettered c hl
    refine ⟨.char c, fun cs ps rest h => ?_, fun ps => rfl⟩
    rw [hc, List.cons_append, List.singleton_append,
      pieces.eq_4 _ _ (fun _ _ _ _ _ hb => absurd hb hu), he, h]
    rfl
  have hc := escape_unlettered hl
  by_cases control : c.toNat < 32
  · rw [if_pos control] at hc
    refine ⟨.unit c.toNat, fun cs ps rest h => ?_, fun ps => ?_⟩
    · rw [hc]
      simp only [List.cons_append, List.nil_append, pieces, hexUnit?_control _ control, h]
      rfl
    · rw [assemble_control control, Char.ofNat_toNat]
  · rw [if_neg control] at hc
    have quote : c ≠ '"' := fun same => hl (by simp [same, lettered])
    have backslash : c ≠ '\\' := fun same => hl (by simp [same, lettered])
    refine ⟨.char c, fun cs ps rest h => ?_, fun ps => rfl⟩
    rw [hc, List.singleton_append, pieces.eq_5 _ _ quote (fun _ _ _ _ _ hb => absurd hb backslash)
      (fun _ _ hb => absurd hb backslash), h]
    simp [control, backslash]

theorem pieces_append (cs rest : List Char) : ∃ ps,
    pieces (cs.flatMap escape ++ '"' :: rest) = some (ps, rest) ∧ assemble ps = some cs := by
  induction cs with
  | nil => exact ⟨[], rfl, rfl⟩
  | cons c cs ih =>
    obtain ⟨ps, hps, hassemble⟩ := ih
    obtain ⟨p, hp, hc⟩ := pieces_escape c
    refine ⟨p :: ps, ?_, by rw [hc, hassemble]; rfl⟩
    rw [List.flatMap_cons, List.append_assoc]
    exact hp _ _ _ hps

theorem stringBody_append (s : String) (rest : List Char) :
    stringBody (s.toList.flatMap escape ++ '"' :: rest) = some (some s, rest) := by
  obtain ⟨ps, hps, hassemble⟩ := pieces_append s.toList rest
  simp [stringBody, hps, hassemble]

/-- What may stand after a value: nothing, or what a container goes on with. -/
inductive Follows : List Char → Prop where
  | nothing : Follows []
  | comma (cs : List Char) : Follows (',' :: cs)
  | bracket (cs : List Char) : Follows (']' :: cs)
  | brace (cs : List Char) : Follows ('}' :: cs)

/-- Digits start with a zero for the number zero only. -/
theorem toDigits_head (n : Nat) :
    ∃ d ds, Nat.toDigits 10 n = Nat.digitChar d :: ds ∧ d < 10 ∧ (d = 0 → n = 0) := by
  induction n using Nat.strongRecOn with
  | ind n ih =>
    by_cases h : n < 10
    · exact ⟨n, [], Nat.toDigits_of_lt_base h, h, id⟩
    · obtain ⟨d, ds, hd, hlt, hzero⟩ := ih (n / 10) (by omega)
      refine ⟨d, ds ++ [Nat.digitChar (n % 10)], ?_, hlt, fun hd => ?_⟩
      · rw [Nat.toDigits_of_base_le (by decide) (by omega), hd, List.cons_append]
      · have := hzero hd
        omega

theorem digitsValue_toDigits (n : Nat) : digitsValue (Nat.toDigits 10 n) = n := by
  have fold : digitsValue (Nat.toDigits 10 n) = Nat.ofDigitChars 10 (Nat.toDigits 10 n) 0 := by
    simp only [digitsValue, Nat.ofDigitChars, Nat.mul_comm]
    rfl
  rw [fold, Nat.ofDigitChars_ten_toDigits]

theorem span_toDigits (n : Nat) {rest : List Char} (follows : Follows rest) :
    (Nat.toDigits 10 n ++ rest).span Char.isDigit = (Nat.toDigits 10 n, rest) := by
  have digits : ∀ c ∈ Nat.toDigits 10 n, c.isDigit = true := fun c hc =>
    Nat.isDigit_of_mem_toDigits (by decide) (by decide) hc
  have stops : rest.takeWhile Char.isDigit = [] ∧ rest.dropWhile Char.isDigit = rest := by
    cases follows <;> exact ⟨rfl, rfl⟩
  rw [List.span_eq_takeWhile_dropWhile, List.takeWhile_append_of_pos digits,
    List.dropWhile_append_of_pos digits, stops.1, stops.2, List.append_nil]

theorem integerDigits?_append (n : Nat) {rest : List Char} (follows : Follows rest) :
    integerDigits? (Nat.toDigits 10 n ++ rest) = some (Nat.toDigits 10 n, rest) := by
  rw [integerDigits?, span_toDigits n follows]
  obtain ⟨d, ds, hd, hlt, hzero⟩ := toDigits_head n
  by_cases h : d = 0
  · obtain rfl := hzero h
    rfl
  · rw [hd]
    interval_cases d <;> first | rfl | contradiction

/-- No fraction and no exponent stand in front of what follows a value. -/
theorem skip_follows {rest : List Char} (follows : Follows rest) :
    skipFraction? rest = some rest ∧ skipExponent? rest = some rest := by
  cases follows <;> exact ⟨rfl, rfl⟩

theorem number?_append {n : Nat} (fits : n < 2 ^ 64) {rest : List Char} (follows : Follows rest) :
    number? (Nat.toDigits 10 n ++ rest) = some (nat n, rest) := by
  have bound : n < Nat.pow 2 64 := fits
  have unsigned : ∀ cs, Nat.toDigits 10 n ++ rest = '-' :: cs → False := by
    intro cs same
    obtain ⟨d, ds, hd, hlt, -⟩ := toDigits_head n
    rw [hd] at same
    interval_cases d <;> cases same
  rw [number?.eq_2 _ unsigned, integerDigits?_append n follows]
  simp [(skip_follows follows).1, (skip_follows follows).2, digitsValue_toDigits, bound]

theorem value?_nat {n : Nat} (fits : n < 2 ^ 64) (fuel : Nat) {rest : List Char}
    (follows : Follows rest) :
    value? (fuel + 1) (Nat.toDigits 10 n ++ rest) = some (nat n, rest) := by
  have number : value? (fuel + 1) (Nat.toDigits 10 n ++ rest) =
      number? (Nat.toDigits 10 n ++ rest) := by
    obtain ⟨d, ds, hd, hlt, -⟩ := toDigits_head n
    rw [hd]
    interval_cases d <;> rfl
  rw [number, number?_append fits follows]

/-- A value starts with a character that is no blank and closes nothing. -/
theorem chars_head (j : Json) : ∃ c cs, chars j = c :: cs ∧ isBlank c = false ∧ c ≠ ']' := by
  cases j with
  | null | foreign => exact ⟨'n', _, rfl, rfl, by decide⟩
  | bool b => cases b with
    | true => exact ⟨'t', _, rfl, rfl, by decide⟩
    | false => exact ⟨'f', _, rfl, rfl, by decide⟩
  | nat n =>
    obtain ⟨d, ds, hd, hlt, -⟩ := toDigits_head n
    refine ⟨Nat.digitChar d, ds, hd, ?_⟩
    interval_cases d <;> exact ⟨rfl, by decide⟩
  | text s => exact ⟨'"', _, rfl, rfl, by decide⟩
  | array items => exact ⟨'[', _, rfl, rfl, by decide⟩
  | object entries => exact ⟨'\x7b', _, rfl, rfl, by decide⟩

theorem mapM_map {α β γ : Type} {items : List α} {f : α → β} {g : β → Option γ} {h : α → γ}
    (each : ∀ a ∈ items, g (f a) = some (h a)) : (items.map f).mapM g = some (items.map h) := by
  induction items with
  | nil => rfl
  | cons a rest ih =>
    simp [each a List.mem_cons_self, ih fun b hb => each b (List.mem_cons_of_mem _ hb)]

theorem mapM_inverse {α β : Type} {items : List α} {write : α → β} {read : β → Option α}
    (each : ∀ a ∈ items, read (write a) = some a) : (items.map write).mapM read = some items :=
  (mapM_map each).trans (congrArg some (List.map_id items))

theorem ofEntries_text (entries : List (String × Json)) :
    ofEntries (entries.map fun p => (some p.1, p.2)) = object entries := by
  rw [ofEntries, mapM_inverse]
  exact fun _ _ => rfl

/-- The reader takes the text of a value and no more, with two steps for each character. -/
def Reads (j : Json) : Prop :=
  ∀ fuel rest, 2 * (chars j).length ≤ fuel → Follows rest →
    value? fuel (chars j ++ rest) = some (j, rest)

theorem items?_last {fuel : Nat} {cs rest : List Char} {j : Json}
    (first : value? fuel cs = some (j, ']' :: rest)) :
    items? (fuel + 1) cs = some ([j], rest) := by
  rw [items?, first]
  rfl

theorem items?_more {fuel : Nat} {cs tail rest : List Char} {j : Json} {others : List Json}
    (first : value? fuel cs = some (j, ',' :: tail))
    (more : items? fuel tail = some (others, rest)) :
    items? (fuel + 1) cs = some (j :: others, rest) := by
  rw [items?, first]
  exact congrArg (Option.bind · fun p => some (j :: p.1, p.2)) more

theorem items?_append {items : List Json} (h : ∀ j ∈ items, Reads j) (nonempty : items ≠ [])
    {fuel : Nat} (enough : 2 * (itemChars items).length < fuel) (rest : List Char) :
    items? fuel (itemChars items ++ ']' :: rest) = some (items, rest) := by
  induction items generalizing fuel with
  | nil => contradiction
  | cons j others ih =>
    obtain ⟨fuel, rfl⟩ : ∃ n, fuel = n + 1 := ⟨fuel - 1, by omega⟩
    have first := h j List.mem_cons_self
    cases others with
    | nil =>
      exact items?_last (first _ _ (Nat.lt_succ_iff.mp enough) (.bracket rest))
    | cons next others =>
      have lengths : 2 * (chars j).length ≤ fuel ∧
          2 * (itemChars (next :: others)).length < fuel := by
        simp [itemChars] at enough ⊢
        omega
      rw [itemChars, List.append_assoc]
      · exact items?_more (first _ _ lengths.1 (.comma _))
          (ih (fun k hk => h k (List.mem_cons_of_mem _ hk)) (by simp) lengths.2)
      · simp

theorem quoted_append (s : String) (rest : List Char) :
    quoted s ++ rest = '"' :: (s.toList.flatMap escape ++ '"' :: rest) := by
  simp [quoted]

theorem entries?_name (fuel : Nat) (name : String) (cs : List Char) :
    entries? (fuel + 1) (quoted name ++ ':' :: cs) = (value? fuel cs).bind fun (j, rest) =>
      match skipBlanks rest with
      | ',' :: rest => (entries? fuel rest).bind fun (entries, rest) =>
        some ((some name, j) :: entries, rest)
      | '\x7d' :: rest => some ([(some name, j)], rest)
      | _ => none := by
  rw [quoted_append]
  change (stringBody (name.toList.flatMap escape ++ '"' :: ':' :: cs)).bind _ = _
  rw [stringBody_append]
  rfl

theorem entries?_last {fuel : Nat} {cs rest : List Char} {name : String} {j : Json}
    (first : value? fuel cs = some (j, '\x7d' :: rest)) :
    entries? (fuel + 1) (quoted name ++ ':' :: cs) = some ([(some name, j)], rest) := by
  rw [entries?_name, first]
  rfl

theorem entries?_more {fuel : Nat} {cs tail rest : List Char} {name : String} {j : Json}
    {others : List (Option String × Json)} (first : value? fuel cs = some (j, ',' :: tail))
    (more : entries? fuel tail = some (others, rest)) :
    entries? (fuel + 1) (quoted name ++ ':' :: cs) = some ((some name, j) :: others, rest) := by
  rw [entries?_name, first]
  exact congrArg (Option.bind · fun (entries, rest) => some ((some name, j) :: entries, rest)) more

theorem entries?_append {entries : List (String × Json)} (h : ∀ p ∈ entries, Reads p.2)
    (nonempty : entries ≠ []) {fuel : Nat} (enough : 2 * (entryChars entries).length < fuel)
    (rest : List Char) : entries? fuel (entryChars entries ++ '\x7d' :: rest) =
      some (entries.map fun p => (some p.1, p.2), rest) := by
  induction entries generalizing fuel with
  | nil => contradiction
  | cons p others ih =>
    obtain ⟨name, j⟩ := p
    obtain ⟨fuel, rfl⟩ : ∃ n, fuel = n + 1 := ⟨fuel - 1, by omega⟩
    have first := h (name, j) List.mem_cons_self
    cases others with
    | nil =>
      have length : 2 * (chars j).length ≤ fuel := by
        simp [entryChars] at enough
        omega
      rw [entryChars, List.append_assoc]
      exact entries?_last (first _ _ length (.brace rest))
    | cons next others =>
      have lengths : 2 * (chars j).length ≤ fuel ∧
          2 * (entryChars (next :: others)).length < fuel := by
        simp [entryChars] at enough ⊢
        omega
      rw [entryChars, List.append_assoc, List.append_assoc]
      · exact entries?_more (first _ _ lengths.1 (.comma _))
          (ih (fun q hq => h q (List.mem_cons_of_mem _ hq)) (by simp) lengths.2)
      · simp

theorem itemChars_head {items : List Json} (nonempty : items ≠ []) :
    ∃ c cs, itemChars items = c :: cs ∧ isBlank c = false ∧ c ≠ ']' := by
  cases items with
  | nil => contradiction
  | cons j others =>
    obtain ⟨c, cs, hj, hblank, hc⟩ := chars_head j
    cases others with
    | nil => exact ⟨c, cs, hj, hblank, hc⟩
    | cons next others =>
      refine ⟨c, cs ++ ',' :: itemChars (next :: others), ?_, hblank, hc⟩
      rw [itemChars, hj, List.cons_append]
      simp

theorem entryChars_head {entries : List (String × Json)} (nonempty : entries ≠ []) :
    ∃ cs, entryChars entries = '"' :: cs := by
  match entries with
  | [] => contradiction
  | [(name, j)] => exact ⟨_, rfl⟩
  | (name, j) :: next :: others => exact ⟨_, rfl⟩

theorem value?_text (fuel : Nat) (s : String) (rest : List Char) :
    value? (fuel + 1) (quoted s ++ rest) = some (text s, rest) := by
  rw [quoted_append]
  change (stringBody (s.toList.flatMap escape ++ '"' :: rest)).bind _ = _
  rw [stringBody_append]
  rfl

theorem value?_bracket {c : Char} (unblank : isBlank c = false) (unclosed : c ≠ ']') (fuel : Nat)
    (cs : List Char) : value? (fuel + 1) ('[' :: c :: cs) =
      (items? fuel (c :: cs)).bind fun p => some (array p.1, p.2) := by
  have skip : skipBlanks (c :: cs) = c :: cs := by simp [skipBlanks, unblank]
  have bracket : skipBlanks ('[' :: c :: cs) = '[' :: c :: cs := rfl
  rw [value?, bracket]
  simp only [skip]
  split
  · rename_i same
    exact absurd (List.cons.inj same).1 unclosed
  · rfl

theorem value?_array {items : List Json} (h : ∀ j ∈ items, Reads j) {fuel : Nat}
    (enough : 2 * (itemChars items).length < fuel) (rest : List Char) :
    value? (fuel + 1) ('[' :: (itemChars items ++ ']' :: rest)) = some (array items, rest) := by
  by_cases empty : items = []
  · subst empty
    rfl
  · have inner := items?_append h empty enough rest
    obtain ⟨c, cs, hitems, unblank, unclosed⟩ := itemChars_head empty
    rw [hitems, List.cons_append] at inner ⊢
    rw [value?_bracket unblank unclosed, inner]
    rfl

theorem value?_object {entries : List (String × Json)} (h : ∀ p ∈ entries, Reads p.2) {fuel : Nat}
    (enough : 2 * (entryChars entries).length < fuel) (rest : List Char) :
    value? (fuel + 1) ('\x7b' :: (entryChars entries ++ '\x7d' :: rest)) =
      some (object entries, rest) := by
  by_cases empty : entries = []
  · subst empty
    rfl
  · have inner := entries?_append h empty enough rest
    obtain ⟨cs, hentries⟩ := entryChars_head empty
    rw [hentries, List.cons_append] at inner ⊢
    change (entries? fuel ('"' :: (cs ++ '\x7d' :: rest))).bind _ = _
    rw [inner]
    exact congrArg (fun j => some (j, rest)) (ofEntries_text entries)

/-- The text of a value is not empty, so there is a step to take. -/
theorem Reads.of_succ {j : Json} (h : ∀ fuel rest, 2 * (chars j).length ≤ fuel + 1 →
    Follows rest → value? (fuel + 1) (chars j ++ rest) = some (j, rest)) : Reads j := by
  intro fuel rest enough follows
  cases fuel with
  | zero =>
    obtain ⟨c, cs, hj, -⟩ := chars_head j
    simp [hj] at enough
  | succ fuel => exact h fuel rest enough follows

theorem Plain.reads {j : Json} (plain : Plain j) : Reads j := by
  induction plain with
  | null => exact .of_succ fun _ _ _ _ => rfl
  | bool b => exact .of_succ fun _ _ _ _ => by cases b <;> rfl
  | nat fits => exact .of_succ fun fuel _ _ follows => value?_nat fits fuel follows
  | text s => exact .of_succ fun fuel rest _ _ => value?_text fuel s rest
  | @array items _ ih =>
    refine .of_succ fun fuel rest enough _ => ?_
    have inner : 2 * (itemChars items).length < fuel := by
      simp [chars] at enough
      omega
    simpa [chars] using value?_array ih inner rest
  | @object entries _ ih =>
    refine .of_succ fun fuel rest enough _ => ?_
    have inner : 2 * (entryChars entries).length < fuel := by
      simp [chars] at enough
      omega
    simpa [chars] using value?_object ih inner rest

/-- The text of a plain value reads as the value. -/
theorem read?_print {j : Json} (plain : Plain j) : read? j.print = some j := by
  have value := plain.reads (2 * (chars j).length + 2) [] (Nat.le_add_right _ _) .nothing
  rw [List.append_nil] at value
  rw [read?, print, String.toList_ofList]
  simp only [value, Option.bind_eq_bind, Option.bind_some]
  rfl

end NetBridge.Json
