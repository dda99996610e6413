import NetBridge.Proofs.Verilog.ReadModule

/-! # Headers

The header of a module lists its ports, and the lines right after it declare them. No
other line declares a port: the rest of the text has the keywords of nets, assignments and
processes at the front of its lines, or names, which are no keywords. -/
namespace NetBridge.Verilog

namespace Reader

structure Header where
  name : String
  /-- The names between the parentheses. -/
  listed : List String
  /-- The declarations right after the parentheses. -/
  ports : List Port

def portLine : Read Port := fun cs =>
  match item cs with
  | some (.port p, cs) => some (p, cs)
  | _ => none

def header : Read Header := fun cs => do
  let cs ← expect "/* Generated by weld */\n\n" cs
  let cs ← expect "module " cs
  let (n, cs) ← identifier cs
  let cs ← expect "(" cs
  let (listed, cs) := names cs
  let cs ← expect ");\n" cs
  let (ports, cs) := many portLine cs.length cs
  return (⟨n, listed, ports⟩, cs)

/-- The first word after the blanks. -/
def keyword (cs : List Char) : String := (word (cs.dropWhile (· == ' '))).1

/-- The keyword is that of a port. -/
def DeclaresPort (cs : List Char) : Prop := keyword cs = "input" ∨ keyword cs = "output"

instance : DecidablePred DeclaresPort := fun _ => inferInstanceAs (Decidable (_ ∨ _))

theorem portLine_append {p : Port} (h : isName p.name = true) (rest : List Char) :
    portLine (p.text.toList ++ rest) = some (Module.normalPort p, rest) := by
  rw [portLine, item_port h]

/-- Blanks may stand before the first word. -/
theorem keyword_blanks {blanks body : List Char} (blank : ∀ c ∈ blanks, c = ' ')
    (nonempty : (word body).1 ≠ "") : keyword (blanks ++ body) = (word body).1 := by
  have front : body.dropWhile (· == ' ') = body := by
    cases body with
    | nil => rfl
    | cons c rest =>
      refine List.dropWhile_cons_of_neg fun blank => nonempty ?_
      obtain rfl : c = ' ' := by simpa using blank
      rfl
  rw [keyword, List.dropWhile_append_of_pos fun c hc => by simp [blank c hc], front]

theorem declaresPort_of_item {cs rest : List Char} {p : Port} (h : item cs = some (.port p, rest)) :
    DeclaresPort cs := by
  rw [item, Option.bind_eq_bind, Option.bind_eq_some_iff] at h
  obtain ⟨body, hbody, h⟩ := h
  obtain rfl := expect_eq_some.mp hbody
  have keyword : (word body).1 = "input" ∨ (word body).1 = "output" := by
    split at h
    · rename_i hw
      exact .inl (congrArg Prod.fst hw)
    · rename_i hw
      exact .inr (congrArg Prod.fst hw)
    all_goals simp [Option.bind_eq_some_iff] at h
  have nonempty : (word body).1 ≠ "" := by rcases keyword with hw | hw <;> simp [hw]
  rwa [DeclaresPort, keyword_blanks (by simp) nonempty]

theorem portLine_none {cs : List Char} (h : ¬ DeclaresPort cs) : portLine cs = none := by
  rw [portLine]
  split
  · rename_i hitem
    exact absurd (declaresPort_of_item hitem) h
  · rfl

/-- The keyword of a text is on its first line. -/
theorem keyword_line (line rest : List Char) : keyword (line ++ '\n' :: rest) = keyword line := by
  have blanks : (line ++ '\n' :: rest).dropWhile (· == ' ') =
      line.dropWhile (· == ' ') ++ '\n' :: rest := by
    rw [List.dropWhile_append]
    split
    · rename_i empty
      rw [List.isEmpty_iff.mp empty]
      rfl
    · rfl
  have ends (cs : List Char) : (cs ++ '\n' :: rest).takeWhile isNameChar = cs.takeWhile isNameChar := by
    rw [List.takeWhile_append]
    split
    · rename_i whole
      rw [(List.takeWhile_prefix _).eq_of_length whole]
      exact List.append_nil cs
    · rfl
  rw [keyword, word, blanks, ends]
  rfl

/-- Whole lines, none of which declares a port. -/
def Portless (cs : List Char) : Prop :=
  ∃ lines : List (List Char), cs = lines.flatMap (· ++ ['\n']) ∧
    ∀ l ∈ lines, '\n' ∉ l ∧ ¬ DeclaresPort l

theorem ends_nil {p : Char → Bool} : Ends p [] := by simp [Ends]

/-- A word that does not declare a port. -/
def isPlainWord (w : String) : Bool :=
  w.toList.all isNameChar && w != "" && w != "input" && w != "output"

theorem isPlainWord_iff {w : String} : isPlainWord w = true ↔
    (∀ c ∈ w.toList, isNameChar c = true) ∧ w ≠ "" ∧ w ≠ "input" ∧ w ≠ "output" := by
  simp [isPlainWord, and_assoc]

theorem isPlainWord_of_isName {n : String} (h : isName n = true) : isPlainWord n = true := by
  obtain ⟨⟨c, rest, front, -⟩, chars, free⟩ := isName_iff.mp h
  refine isPlainWord_iff.mpr ⟨chars, ?_, ?_, ?_⟩
  · rintro rfl
    cases front
  · rintro rfl
    exact free (by decide)
  · rintro rfl
    exact free (by decide)

namespace Portless

theorem nil : Portless [] := ⟨[], rfl, by simp⟩

theorem append {cs cs' : List Char} (h : Portless cs) (h' : Portless cs') : Portless (cs ++ cs') := by
  obtain ⟨lines, rfl, portless⟩ := h
  obtain ⟨lines', rfl, portless'⟩ := h'
  exact ⟨lines ++ lines', List.flatMap_append.symm, List.forall_mem_append.mpr ⟨portless, portless'⟩⟩

theorem join {α : Type} {text : α → String} {as : List α}
    (each : ∀ a ∈ as, Portless (text a).toList) : Portless (String.join (as.map text)).toList := by
  induction as with
  | nil => exact nil
  | cons a rest ih =>
    obtain ⟨first, others⟩ := List.forall_mem_cons.mp each
    simpa [String.toList_append] using first.append (ih others)

/-- The lines of the text are these lines, and there is nothing after the last of them. -/
theorem lines {cs : List Char} (h : Portless cs) : ∀ l ∈ cs.splitOn '\n', ¬ DeclaresPort l := by
  obtain ⟨lines, rfl, portless⟩ := h
  induction lines with
  | nil =>
    intro l hl
    obtain rfl : l = [] := by simpa using hl
    decide
  | cons line rest ih =>
    obtain ⟨⟨whole, other⟩, others⟩ := List.forall_mem_cons.mp portless
    rw [List.flatMap_cons, List.append_assoc, List.singleton_append,
      List.splitOn_append_cons_self_of_not_mem whole]
    exact List.forall_mem_cons.mpr ⟨other, ih others⟩

theorem not_declaresPort {cs : List Char} (h : Portless cs) : ¬ DeclaresPort cs := by
  obtain ⟨lines, rfl, portless⟩ := h
  cases lines with
  | nil => decide
  | cons line rest =>
    rw [List.flatMap_cons, List.append_assoc, List.singleton_append, DeclaresPort, keyword_line]
    exact (portless line List.mem_cons_self).2

/-- A line that begins with a word, after blanks. -/
theorem line {blanks w : String} {more : List Char} (blank : blanks.toList.all (· == ' ') = true)
    (plain : isPlainWord w = true) (ends : Ends isNameChar more) (whole : '\n' ∉ more) :
    Portless (blanks.toList ++ (w.toList ++ (more ++ ['\n']))) := by
  obtain ⟨chars, nonempty, input, output⟩ := isPlainWord_iff.mp plain
  have blank : ∀ c ∈ blanks.toList, c = ' ' := by simpa using blank
  have body : (word (w.toList ++ more)).1 = w := by
    rw [word_text (List.all_eq_true.mpr chars) ends]
  have front : keyword (blanks.toList ++ (w.toList ++ more)) = w := by
    rw [keyword_blanks blank (body.symm ▸ nonempty), body]
  refine ⟨[blanks.toList ++ (w.toList ++ more)], by simp,
    List.forall_mem_singleton.mpr ⟨fun h => ?_, ?_⟩⟩
  · rcases List.mem_append.mp h with h | h
    · exact absurd (blank _ h) (by decide)
    · exact (List.mem_append.mp h).elim (fun h => absurd (chars _ h) (by decide)) whole
  · rw [DeclaresPort, front]
    exact not_or.mpr ⟨input, output⟩

end Portless

theorem newline_notMem {cs : List Char} (chars : ∀ c ∈ cs, isNameChar c = true) : '\n' ∉ cs :=
  fun h => absurd (chars _ h) (by decide)

theorem newline_notMem_name {n : String} (h : isName n = true) : '\n' ∉ n.toList :=
  newline_notMem (isName_iff.mp h).2.1

theorem newline_notMem_digits (n : Nat) : '\n' ∉ Nat.toDigits 10 n :=
  newline_notMem fun _ hc =>
    isNameChar_of_isDigit (Nat.isDigit_of_mem_toDigits (by decide) (by decide) hc)

theorem newline_notMem_literal (value : Word) (shape : Shape) :
    '\n' ∉ (literalText value shape).toList := by
  have digits : '\n' ∉ (Word.hex (shape.truncate value)).toList := by
    rw [Word.hex, String.toList_ofList]
    refine newline_notMem fun c hc => ?_
    obtain ⟨d, hd, rfl⟩ := mem_toDigits (by decide) hc
    exact isNameChar_of_isHexDigit (isHexDigit_digitChar d hd)
  rw [literalText]
  split <;> simp [digits, newline_notMem_digits]

theorem newline_notMem_signedText (shape : Shape) : '\n' ∉ (signedText shape).toList := by
  rw [signedText]
  split <;> simp

theorem newline_notMem_rangeText (shape : Shape) : '\n' ∉ (rangeText shape).toList := by
  rw [rangeText]
  split <;> simp [newline_notMem_digits]

mutual

/-- An expression is written on one line. -/
theorem newline_notMem_text (e : Expr) (names : ∀ n ∈ e.names, isName n = true) :
    '\n' ∉ e.text.toList := by
  cases e with
  | name n => exact newline_notMem_name (names n (by simp [Expr.names]))
  | literal value shape => exact newline_notMem_literal value shape
  | unary op operand =>
    have inner := newline_notMem_text operand names
    cases op <;> simp [Expr.text, UnaryOp.token, inner]
  | binary op left right =>
    have hl := newline_notMem_text left fun n hn => names n (by simp [Expr.names, hn])
    have hr := newline_notMem_text right fun n hn => names n (by simp [Expr.names, hn])
    cases op <;> simp [Expr.text, BinaryOp.token, hl, hr]
  | bitSelect base index =>
    have hb := newline_notMem_name (names base (by simp [Expr.names]))
    have text := chars_bitSelect [] base index
    simp_all [newline_notMem_digits]
  | partSelect base high low =>
    have hb := newline_notMem_name (names base (by simp [Expr.names]))
    have text := chars_partSelect [] base high low
    simp_all [newline_notMem_digits]
  | concat parts =>
    have inner := newline_notMem_partsText parts names
    simp [Expr.text, inner]
  | conditional condition whenTrue whenFalse =>
    have hc := newline_notMem_text condition fun n hn => names n (by simp [Expr.names, hn])
    have ht := newline_notMem_text whenTrue fun n hn => names n (by simp [Expr.names, hn])
    have hf := newline_notMem_text whenFalse fun n hn => names n (by simp [Expr.names, hn])
    simp [Expr.text, hc, ht, hf]

theorem newline_notMem_partsText (parts : List Expr)
    (names : ∀ n ∈ Expr.namesOfParts parts, isName n = true) :
    '\n' ∉ (Expr.partsText parts).toList := by
  cases parts with
  | nil => simp [Expr.partsText]
  | cons e rest =>
    have he := newline_notMem_text e fun n hn => names n (by simp [Expr.namesOfParts, hn])
    have hr := newline_notMem_partsText rest fun n hn => names n (by simp [Expr.namesOfParts, hn])
    cases rest with
    | nil => exact he
    | cons next others => simp [Expr.partsText, he, hr]

end

theorem portless_net {n : Net} (h : isName n.name = true) : Portless n.text.toList := by
  have name := newline_notMem_name h
  cases n with
  | wire shape n =>
    let more := (signedText shape).toList ++ ((rangeText shape).toList ++ (n.toList ++ ";".toList))
    have text : (Net.wire shape n).text.toList =
        "  ".toList ++ ("wire".toList ++ ((" ".toList ++ more) ++ ['\n'])) := by
      have written : (Net.wire shape n).text =
          "  " ++ "wire" ++ " " ++ signedText shape ++ rangeText shape ++ n ++ ";\n" := rfl
      simp [written, more]
    have whole : '\n' ∉ " ".toList ++ more := by
      have name : '\n' ∉ n.toList := name
      simp [more, newline_notMem_signedText, newline_notMem_rangeText, name]
    rw [text]
    exact .line rfl rfl (ends_text rfl more) whole
  | reg shape n value =>
    let more := (signedText shape).toList ++ ((rangeText shape).toList ++ (n.toList ++
      (" = ".toList ++ ((literalText value shape).toList ++ ";".toList))))
    have text : (Net.reg shape n value).text.toList =
        "  ".toList ++ ("reg".toList ++ ((" ".toList ++ more) ++ ['\n'])) := by
      have written : (Net.reg shape n value).text = "  " ++ "reg" ++ " " ++ signedText shape ++
          rangeText shape ++ n ++ " = " ++ literalText value shape ++ ";\n" := rfl
      simp [written, more]
    have whole : '\n' ∉ " ".toList ++ more := by
      have name : '\n' ∉ n.toList := name
      simp [more, newline_notMem_signedText, newline_notMem_rangeText, newline_notMem_literal, name]
    rw [text]
    exact .line rfl rfl (ends_text rfl more) whole

theorem portless_assign {a : Assign} (h : ∀ n ∈ a.names, isName n = true) :
    Portless a.text.toList := by
  obtain ⟨target, value⟩ := a
  obtain ⟨legal, values⟩ := List.forall_mem_cons.mp h
  let more := target.toList ++ (" = ".toList ++ (value.text.toList ++ ";".toList))
  have text : (Assign.text ⟨target, value⟩).toList =
      "  ".toList ++ ("assign".toList ++ ((" ".toList ++ more) ++ ['\n'])) := by
    have written : Assign.text ⟨target, value⟩ =
        "  " ++ "assign" ++ " " ++ target ++ " = " ++ value.text ++ ";\n" := rfl
    simp [written, more]
  have whole : '\n' ∉ " ".toList ++ more := by
    simp [more, newline_notMem_name legal, newline_notMem_text value values]
  rw [text]
  exact .line rfl rfl (ends_text rfl more) whole

theorem portless_update {u : Assign} (h : ∀ n ∈ u.names, isName n = true) :
    Portless (updateText u).toList := by
  obtain ⟨target, value⟩ := u
  obtain ⟨legal, values⟩ := List.forall_mem_cons.mp h
  let more := value.text.toList ++ ";".toList
  have text : (updateText ⟨target, value⟩).toList =
      "    ".toList ++ (target.toList ++ ((" <= ".toList ++ more) ++ ['\n'])) := by
    simp [updateText, more]
  have whole : '\n' ∉ " <= ".toList ++ more := by simp [more, newline_notMem_text value values]
  rw [text]
  exact .line rfl (isPlainWord_of_isName legal) (ends_text rfl more) whole

theorem portless_reset {r : Reset} (h : isName r.target = true) :
    Portless (resetText r).toList := by
  obtain ⟨target, value, shape⟩ := r
  let more := (literalText value shape).toList ++ ";".toList
  have text : (resetText ⟨target, value, shape⟩).toList =
      "      ".toList ++ (target.toList ++ ((" <= ".toList ++ more) ++ ['\n'])) := by
    simp [resetText, more]
  have whole : '\n' ∉ " <= ".toList ++ more := by simp [more, newline_notMem_literal]
  rw [text]
  exact .line rfl (isPlainWord_of_isName h) (ends_text rfl more) whole

/-- The clock and the reset may be anything that stays on the line. -/
theorem portless_process {p : AlwaysBlock} (clk : '\n' ∉ p.clk.toList) (rst : '\n' ∉ p.rst.toList)
    (updates : ∀ u ∈ p.updates, ∀ n ∈ u.names, isName n = true)
    (resets : ∀ r ∈ p.resets, isName r.target = true) : Portless p.text.toList := by
  have text : p.text.toList =
      ("  ".toList ++ ("always".toList ++
        ((" @(posedge ".toList ++ (p.clk.toList ++ ") begin".toList)) ++ ['\n']))) ++
      ((String.join (p.updates.map updateText)).toList ++
      (("    ".toList ++ ("if".toList ++
        ((" (".toList ++ (p.rst.toList ++ ") begin".toList)) ++ ['\n']))) ++
      ((String.join (p.resets.map resetText)).toList ++
      (("    ".toList ++ ("end".toList ++ ([] ++ ['\n']))) ++
      ("  ".toList ++ ("end".toList ++ ([] ++ ['\n']))))))) := by
    have written : p.text = "  " ++ "always" ++ " @(posedge " ++ p.clk ++ ") begin\n" ++
        String.join (p.updates.map updateText) ++ ("    if (" ++ p.rst ++ ") begin\n") ++
        String.join (p.resets.map resetText) ++ "    end\n  end\n" := rfl
    simp [written]
  have clock : '\n' ∉ " @(posedge ".toList ++ (p.clk.toList ++ ") begin".toList) := by simp [clk]
  have reset : '\n' ∉ " (".toList ++ (p.rst.toList ++ ") begin".toList) := by simp [rst]
  rw [text]
  refine .append (.line rfl rfl (ends_text rfl _) clock) ?_
  refine .append (.join fun u hu => portless_update (updates u hu)) ?_
  refine .append (.line rfl rfl (ends_text rfl _) reset) ?_
  refine .append (.join fun r hr => portless_reset (resets r hr)) ?_
  exact .append (.line rfl rfl ends_nil List.not_mem_nil) (.line rfl rfl ends_nil List.not_mem_nil)

end Reader

/-- All names are identifiers, except perhaps those of clocks and resets, which only have to
stay on their lines. -/
structure Module.Lined (m : Module) : Prop where
  name : isIdentifier m.name = true
  declared : ∀ n ∈ m.declared, isName n = true
  assigns : ∀ a ∈ m.assigns, ∀ n ∈ a.names, isName n = true
  updates : ∀ p ∈ m.processes, ∀ u ∈ p.updates, ∀ n ∈ u.names, isName n = true
  resets : ∀ p ∈ m.processes, ∀ r ∈ p.resets, isName r.target = true
  edges : ∀ p ∈ m.processes, '\n' ∉ p.clk.toList ∧ '\n' ∉ p.rst.toList

open Reader in
/-- The header of a module names its ports, in order, and the lines after it declare them. No
other line declares a port. -/
theorem header_text {m : Module} (lined : m.Lined) : ∃ rest,
    header m.text.toList = some (⟨m.name, m.ports.map (·.name), m.normal.ports⟩, rest) ∧
      ∀ l ∈ rest.splitOn '\n', ¬ DeclaresPort l := by
  let ports := m.ports.map (·.name)
  let others := (String.join (m.nets.map Net.text)).toList ++
    ((String.join (m.assigns.map Assign.text)).toList ++
      ((String.join (m.processes.map AlwaysBlock.text)).toList ++ "endmodule\n".toList))
  let body := (String.join (m.ports.map Port.text)).toList ++ others
  have chars : m.text.toList = "/* Generated by weld */\n\n".toList ++ ("module ".toList ++
      (m.name.toList ++ ("(".toList ++ ((", ".intercalate ports).toList ++
        (");\n".toList ++ body))))) := by
    have written : m.text = "/* Generated by weld */\n\n" ++ "module " ++ m.name ++ "(" ++
        ", ".intercalate ports ++ ");\n" ++ String.join (m.ports.map Port.text) ++
        String.join (m.nets.map Net.text) ++ String.join (m.assigns.map Assign.text) ++
        String.join (m.processes.map AlwaysBlock.text) ++ "endmodule\n" := rfl
    rw [written]
    simp only [String.toList_append, List.append_assoc, body, others]
  have portless : Portless others := by
    have closing : "endmodule\n".toList =
        "".toList ++ ("endmodule".toList ++ ([] ++ ['\n'])) := rfl
    refine .append (.join fun n hn => portless_net ?_) ?_
    · exact lined.declared _ (List.mem_append_right _ (List.mem_map_of_mem hn))
    refine .append (.join fun a ha => portless_assign (lined.assigns a ha)) ?_
    refine .append (.join fun p hp => ?_) ?_
    · obtain ⟨clk, rst⟩ := lined.edges p hp
      exact portless_process clk rst (lined.updates p hp) (lined.resets p hp)
    · rw [closing]
      exact .line rfl rfl ends_nil List.not_mem_nil
  have start : identifier (m.name.toList ++ ("(".toList ++ ((", ".intercalate ports).toList ++
      (");\n".toList ++ body)))) = some (m.name, _) :=
    identifier_append lined.name (ends_text rfl _)
  have listed := names_append ports (fun n hn => lined.declared n (List.mem_append_left _ hn)) body
  have lines : many portLine body.length body = (m.ports.map Module.normalPort, others) := by
    refine many_join (fun p hp rest => portLine_append ?_ rest) (portLine_none portless.not_declaresPort)
    exact lined.declared _ (List.mem_append_left _ (List.mem_map_of_mem hp))
  refine ⟨others, ?_, portless.lines⟩
  rw [chars, header]
  simp only [expect_append, start, listed, lines, Option.bind_eq_bind, Option.bind_some,
    Option.pure_def]
  rfl

end NetBridge.Verilog
