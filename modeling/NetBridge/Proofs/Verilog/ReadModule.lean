import NetBridge.Proofs.Verilog.RoundTrip

/-! # Reading modules

Declarations, assignments and processes are read back line by line, and a module from
its lines. -/
namespace NetBridge.Verilog

namespace Reader

/-- Items are read as long as they go on; each may ask for something of what follows. -/
theorem many_append {α β : Type} {item : Read α} {text : β → String} {f : β → α}
    (follows : List Char → Prop) (as : List β)
    (each : ∀ a ∈ as, ∀ rest, follows rest → item ((text a).toList ++ rest) = some (f a, rest))
    (next : ∀ a ∈ as, ∀ rest, follows ((text a).toList ++ rest)) {rest : List Char}
    (last : follows rest) (stop : item rest = none) (n : Nat) (enough : as.length ≤ n) :
    many item n ((String.join (as.map text)).toList ++ rest) = (as.map f, rest) := by
  induction as generalizing n with
  | nil =>
    cases n with
    | zero => simp [many]
    | succ n => simp [many, stop]
  | cons a more ih =>
    obtain ⟨k, rfl⟩ : ∃ k, n = k + 1 := ⟨n - 1, by simp at enough; omega⟩
    have hmore := ih (fun b hb => each b (List.mem_cons_of_mem a hb))
      (fun b hb => next b (List.mem_cons_of_mem a hb)) k (by simpa using enough)
    have chars : (String.join ((a :: more).map text)).toList ++ rest =
        (text a).toList ++ ((String.join (more.map text)).toList ++ rest) := by
      simp [String.toList_append]
    have follow : follows ((String.join (more.map text)).toList ++ rest) := by
      cases more with
      | nil => simpa using last
      | cons b others =>
        have := next b (by simp) ((String.join (others.map text)).toList ++ rest)
        simpa [String.toList_append] using this
    rw [chars, many]
    simp only [each a List.mem_cons_self _ follow, hmore, List.map_cons]

theorem length_le_join {β : Type} {text : β → String} (as : List β)
    (nonempty : ∀ a ∈ as, (text a).toList ≠ []) :
    as.length ≤ (String.join (as.map text)).toList.length := by
  induction as with
  | nil => simp
  | cons a more ih =>
    have hmore := ih fun b hb => nonempty b (List.mem_cons_of_mem a hb)
    have hfirst := List.length_pos_iff.mpr (nonempty a List.mem_cons_self)
    have chars : (String.join ((a :: more).map text)).toList =
        (text a).toList ++ (String.join (more.map text)).toList := by
      simp [String.toList_append]
    rw [chars, List.length_append, List.length_cons]
    omega

/-- The characters that are left are fuel enough: an item without any would be read where
reading stops. -/
theorem many_join {α β : Type} {item : Read α} {text : β → String} {f : β → α} {as : List β}
    (each : ∀ a ∈ as, ∀ rest, item ((text a).toList ++ rest) = some (f a, rest)) {rest : List Char}
    (stop : item rest = none) :
    many item ((String.join (as.map text)).toList ++ rest).length
      ((String.join (as.map text)).toList ++ rest) = (as.map f, rest) := by
  have nonempty : ∀ a ∈ as, (text a).toList ≠ [] := by
    intro a ha hnil
    have := each a ha rest
    rw [hnil, List.nil_append, stop] at this
    cases this
  refine many_append (fun _ => True) as (fun a ha rest _ => each a ha rest) (fun _ _ _ => trivial)
    trivial stop _ ?_
  have := length_le_join as nonempty
  rw [List.length_append]
  omega

theorem word_text {t : String} (chars : t.toList.all isNameChar = true) {rest : List Char}
    (ends : Ends isNameChar rest) : word (t.toList ++ rest) = (t, rest) := by
  obtain ⟨take, drop⟩ := takeWhile_append (List.all_eq_true.mp chars) ends
  rw [word, take, drop, String.ofList_toList]

/-- A name is never mistaken for the keyword. -/
theorem expect_signed {n : String} (h : isName n = true) {rest : List Char}
    (ends : Ends isNameChar rest) : expect "signed " (n.toList ++ rest) = none := by
  cases he : expect "signed " (n.toList ++ rest) with
  | none => rfl
  | some r =>
    have heq := expect_eq_some.mp he
    have split : "signed ".toList ++ r = "signed".toList ++ (" ".toList ++ r) := rfl
    have words : word (n.toList ++ rest) = word ("signed".toList ++ (" ".toList ++ r)) := by
      rw [heq, split]
    rw [word_text (List.all_eq_true.mpr (isName_iff.mp h).2.1) ends,
      word_text rfl (ends_text rfl r)] at words
    rw [(Prod.mk.inj words).1] at h
    cases h

def signedText (s : Shape) : String := if s.signed then "signed " else ""

def rangeText (s : Shape) : String :=
  if 1 < s.width then "[" ++ toString (s.width - 1) ++ ":0] " else ""

theorem range_append (s : Shape) {cs : List Char} (noRange : expect "[" cs = none) :
    range ((rangeText s).toList ++ cs) = some (max s.width 1, cs) := by
  by_cases h : 1 < s.width
  · have chars : (rangeText s).toList ++ cs =
        "[".toList ++ ((toString (s.width - 1)).toList ++ (":0] ".toList ++ cs)) := by
      simp [rangeText, h]
    have high := decimal_append (s.width - 1) (ends_text (t := ":0] ") rfl cs)
    have width : s.width - 1 + 1 = max s.width 1 := by omega
    rw [chars, range]
    simp only [expect_append, high, Option.bind_eq_bind, Option.bind_some, Option.pure_def, width]
  · have chars : (rangeText s).toList ++ cs = cs := by simp [rangeText, h]
    have width : 1 = max s.width 1 := by omega
    rw [chars, range]
    simp only [noRange, ← width]

theorem signedness_append (s : Shape) {cs : List Char} (unsigned : expect "signed " cs = none) :
    signedness ((signedText s).toList ++ cs) = (s.signed, cs) := by
  cases h : s.signed with
  | true => simp [signedText, h, signedness, expect, strip]
  | false => simp [signedText, h, signedness, unsigned]

theorem declared_append (kind : String) {n : String} (h : isName n = true) (s : Shape)
    {rest : List Char} (ends : Ends isNameChar rest) :
    (declaration kind s n).toList ++ rest = "  ".toList ++ (kind.toList ++
      (" ".toList ++ ((signedText s).toList ++ ((rangeText s).toList ++ (n.toList ++ rest))))) ∧
    declared (" ".toList ++ ((signedText s).toList ++ ((rangeText s).toList ++ (n.toList ++ rest)))) =
      some ((Module.declaredShape s, n), rest) := by
  constructor
  · have written : declaration kind s n =
        "  " ++ kind ++ " " ++ signedText s ++ rangeText s ++ n := rfl
    simp only [written, String.toList_append, List.append_assoc]
  · have noRange : expect "[" (n.toList ++ rest) = none :=
      expect_of_ends rfl (ends_name h rest fun c hc => isNameChar_ne hc (d := '[') rfl)
    have unsigned : expect "signed " ((rangeText s).toList ++ (n.toList ++ rest)) = none := by
      by_cases hw : 1 < s.width
      · have chars : (rangeText s).toList ++ (n.toList ++ rest) = "[".toList ++
            ((toString (s.width - 1)).toList ++ (":0] ".toList ++ (n.toList ++ rest))) := by
          simp [rangeText, hw]
        rw [chars]
        exact expect_of_ends (p := (· == 's')) rfl (ends_text rfl _)
      · have chars : (rangeText s).toList ++ (n.toList ++ rest) = n.toList ++ rest := by
          simp [rangeText, hw]
        rw [chars]
        exact expect_signed h ends
    rw [declared]
    simp only [expect_append, signedness_append s unsigned, range_append s noRange,
      name_append h ends, Option.bind_eq_bind, Option.bind_some, Option.pure_def]
    rfl

/-- What follows an expression or a name at the end of a line. -/
theorem stops_semicolon (rest : List Char) : Stops (";\n".toList ++ rest) := ends_text rfl rest

def Item.text : Item → String
  | port p => p.text
  | net n => n.text
  | assign a => a.text
  | process p => p.text

def Item.normal : Item → Item
  | port p => port (Module.normalPort p)
  | net n => net (Module.normalNet n)
  | assign a => assign (Module.normalAssign a)
  | process p => process (Module.normalProcess p)

/-- The names of an item are identifiers. -/
def Item.Legal : Item → Prop
  | port p => isName p.name = true
  | net n => isName n.name = true
  | assign a => ∀ n ∈ a.names, isName n = true
  | process p => ∀ n ∈ p.names, isName n = true

theorem item_port {p : Port} (h : isName p.name = true) (rest : List Char) :
    item (p.text.toList ++ rest) = some (.port (Module.normalPort p), rest) := by
  obtain ⟨direction, shape, n⟩ := p
  obtain ⟨chars, declared⟩ := declared_append (PortDirection.keyword direction) h shape
    (stops_semicolon rest).name
  have text : (Port.text ⟨direction, shape, n⟩).toList ++ rest =
      (declaration (PortDirection.keyword direction) shape n).toList ++ (";\n".toList ++ rest) := by
    simp [Port.text]
  rw [text, chars, item]
  cases direction with
  | input =>
    have kind := word_text (t := "input") rfl (ends_text (t := " ") rfl ((signedText shape).toList ++
      ((rangeText shape).toList ++ (n.toList ++ (";\n".toList ++ rest)))))
    simp only [PortDirection.keyword, expect_append, kind, port, declared, Option.bind_eq_bind,
      Option.bind_some, Option.pure_def]
    rfl
  | output =>
    have kind := word_text (t := "output") rfl (ends_text (t := " ") rfl ((signedText shape).toList ++
      ((rangeText shape).toList ++ (n.toList ++ (";\n".toList ++ rest)))))
    simp only [PortDirection.keyword, expect_append, kind, port, declared, Option.bind_eq_bind,
      Option.bind_some, Option.pure_def]
    rfl

theorem item_wire {shape : Shape} {n : String} (h : isName n = true) (rest : List Char) :
    item ((Net.wire shape n).text.toList ++ rest) =
      some (.net (Module.normalNet (.wire shape n)), rest) := by
  obtain ⟨chars, declared⟩ := declared_append "wire" h shape (stops_semicolon rest).name
  have text : (Net.wire shape n).text.toList ++ rest =
      (declaration "wire" shape n).toList ++ (";\n".toList ++ rest) := by
    simp [Net.text]
  have kind := word_text (t := "wire") rfl (ends_text (t := " ") rfl ((signedText shape).toList ++
    ((rangeText shape).toList ++ (n.toList ++ (";\n".toList ++ rest)))))
  rw [text, chars, item]
  simp only [expect_append, kind, wire, declared, Option.bind_eq_bind, Option.bind_some,
    Option.pure_def]
  rfl

theorem item_reg {shape : Shape} {n : String} {value : Word} (h : isName n = true)
    (rest : List Char) : item ((Net.reg shape n value).text.toList ++ rest) =
      some (.net (Module.normalNet (.reg shape n value)), rest) := by
  let tail := " = ".toList ++ ((literalText value shape).toList ++ (";\n".toList ++ rest))
  have ends : Ends isNameChar tail := ends_text rfl _
  obtain ⟨chars, declared⟩ := declared_append "reg" h shape ends
  have text : (Net.reg shape n value).text.toList ++ rest =
      (declaration "reg" shape n).toList ++ tail := by
    simp [Net.text, tail]
  have kind := word_text (t := "reg") rfl (ends_text (t := " ") rfl ((signedText shape).toList ++
    ((rangeText shape).toList ++ (n.toList ++ tail))))
  have start : expect " = " tail = some _ := expect_append " = " _
  rw [text, chars, item]
  simp only [expect_append, kind, reg, declared, start,
    literal_append value shape (stops_semicolon rest).name, Option.bind_eq_bind, Option.bind_some,
    Option.pure_def]
  rfl

/-- The value of an assignment or an update, up to the end of its line. -/
theorem value_append {e : Expr} (legal : ∀ n ∈ e.names, isName n = true) (rest : List Char) :
    expr ((e.text.toList ++ (";\n".toList ++ rest)).length + 1)
      (e.text.toList ++ (";\n".toList ++ rest)) = some (e.normal, ";\n".toList ++ rest) := by
  refine expr_append e legal _ ?_ _ (stops_semicolon rest)
  rw [List.length_append]
  omega

theorem item_assign {a : Assign} (h : ∀ n ∈ a.names, isName n = true) (rest : List Char) :
    item (a.text.toList ++ rest) = some (.assign (Module.normalAssign a), rest) := by
  obtain ⟨target, value⟩ := a
  have legal : isName target = true := h target List.mem_cons_self
  have legal_value : ∀ n ∈ value.names, isName n = true := fun n hn =>
    h n (List.mem_cons_of_mem _ hn)
  have written : Assign.text ⟨target, value⟩ =
      "  " ++ "assign" ++ " " ++ target ++ " = " ++ value.text ++ ";\n" := rfl
  have text : (Assign.text ⟨target, value⟩).toList ++ rest = "  ".toList ++ ("assign".toList ++
      (" ".toList ++ (target.toList ++ (" = ".toList ++ (value.text.toList ++
        (";\n".toList ++ rest)))))) := by
    simp only [written, String.toList_append, List.append_assoc]
  have kind := word_text (t := "assign") rfl (ends_text (t := " ") rfl (target.toList ++
    (" = ".toList ++ (value.text.toList ++ (";\n".toList ++ rest)))))
  have name := name_append legal (ends_text (t := " = ") rfl
    (value.text.toList ++ (";\n".toList ++ rest)))
  rw [text, item]
  simp only [expect_append, kind, assign, name, value_append legal_value, Option.bind_eq_bind,
    Option.bind_some, Option.pure_def]
  rfl

def updateText (u : Assign) : String := "    " ++ u.target ++ " <= " ++ u.value.text ++ ";\n"

def resetText (r : Reset) : String :=
  "      " ++ r.target ++ " <= " ++ literalText r.value r.shape ++ ";\n"

theorem update_append {u : Assign} (h : ∀ n ∈ u.names, isName n = true) (rest : List Char) :
    update ((updateText u).toList ++ rest) = some (Module.normalAssign u, rest) := by
  obtain ⟨target, value⟩ := u
  have legal : isName target = true := h target List.mem_cons_self
  have legal_value : ∀ n ∈ value.names, isName n = true := fun n hn =>
    h n (List.mem_cons_of_mem _ hn)
  have text : (updateText ⟨target, value⟩).toList ++ rest = "    ".toList ++ (target.toList ++
      (" <= ".toList ++ (value.text.toList ++ (";\n".toList ++ rest)))) := by
    simp only [updateText, String.toList_append, List.append_assoc]
  have name := name_append legal (ends_text (t := " <= ") rfl
    (value.text.toList ++ (";\n".toList ++ rest)))
  rw [text, update]
  simp only [expect_append, name, value_append legal_value, Option.bind_eq_bind, Option.bind_some,
    Option.pure_def]
  rfl

theorem reset_append {r : Reset} (h : isName r.target = true) (rest : List Char) :
    reset ((resetText r).toList ++ rest) = some (Module.normalReset r, rest) := by
  obtain ⟨target, value, shape⟩ := r
  have text : (resetText ⟨target, value, shape⟩).toList ++ rest = "      ".toList ++
      (target.toList ++ (" <= ".toList ++ ((literalText value shape).toList ++
        (";\n".toList ++ rest)))) := by
    simp only [resetText, String.toList_append, List.append_assoc]
  have name := name_append h (ends_text (t := " <= ") rfl
    ((literalText value shape).toList ++ (";\n".toList ++ rest)))
  rw [text, reset]
  simp only [expect_append, name, literal_append value shape (stops_semicolon rest).name,
    Option.bind_eq_bind, Option.bind_some, Option.pure_def]
  rfl

theorem item_process {p : AlwaysBlock} (h : ∀ n ∈ p.names, isName n = true) (rest : List Char) :
    item (p.text.toList ++ rest) = some (.process (Module.normalProcess p), rest) := by
  obtain ⟨clk, updates, rst, resets⟩ := p
  let last := "    end\n  end\n".toList ++ rest
  let afterUpdates := "    if (".toList ++ (rst.toList ++ (") begin\n".toList ++
    ((String.join (resets.map resetText)).toList ++ last)))
  let afterClock := ") begin\n".toList ++ ((String.join (updates.map updateText)).toList ++ afterUpdates)
  have text : (AlwaysBlock.text ⟨clk, updates, rst, resets⟩).toList ++ rest = "  ".toList ++
      ("always".toList ++ (" @(posedge ".toList ++ (clk.toList ++ afterClock))) := by
    have written : AlwaysBlock.text ⟨clk, updates, rst, resets⟩ =
        "  " ++ "always" ++ " @(posedge " ++ clk ++ ") begin\n" ++
          String.join (updates.map updateText) ++ ("    if (" ++ rst ++ ") begin\n") ++
          String.join (resets.map resetText) ++ "    end\n  end\n" := rfl
    simp only [written, String.toList_append, List.append_assoc, afterClock, afterUpdates, last]
  have legal_clk : isName clk = true := h clk List.mem_cons_self
  have legal_rst : isName rst = true := h rst (by simp [AlwaysBlock.names])
  have legal_updates : ∀ u ∈ updates, ∀ n ∈ u.names, isName n = true := by
    intro u hu n hn
    refine h n ?_
    simp only [AlwaysBlock.names, List.mem_cons, List.mem_append, List.mem_flatMap]
    exact Or.inr (Or.inr (Or.inl ⟨u, hu, hn⟩))
  have legal_resets : ∀ r ∈ resets, isName r.target = true := by
    intro r hr
    refine h r.target ?_
    simp only [AlwaysBlock.names, List.mem_cons, List.mem_append, List.mem_map]
    exact Or.inr (Or.inr (Or.inr ⟨r, hr, rfl⟩))
  have kind := word_text (t := "always") rfl (ends_text (t := " @(posedge ") rfl
    (clk.toList ++ afterClock))
  have clock : name (clk.toList ++ afterClock) = some (clk, afterClock) :=
    name_append legal_clk (ends_text rfl _)
  have noUpdate : update afterUpdates = none := by
    have skip : expect "    " afterUpdates = some ("if".toList ++ (" (".toList ++ (rst.toList ++
        (") begin\n".toList ++ ((String.join (resets.map resetText)).toList ++ last))))) :=
      expect_eq_some.mpr rfl
    have keyword : name ("if".toList ++ (" (".toList ++ (rst.toList ++ (") begin\n".toList ++
        ((String.join (resets.map resetText)).toList ++ last))))) = none := by
      rw [name, word_text rfl (ends_text rfl _)]
      rfl
    rw [update]
    simp only [skip, keyword, Option.bind_eq_bind, Option.bind_some, Option.bind_none]
  have readUpdates := many_join (f := Module.normalAssign)
    (fun u hu rest => update_append (legal_updates u hu) rest) noUpdate
  have reset_name := name_append legal_rst (ends_text (t := ") begin\n") rfl
    ((String.join (resets.map resetText)).toList ++ last))
  have noReset : reset last = none := by
    simp [reset, last, expect, strip]
  have readResets := many_join (f := Module.normalReset)
    (fun r hr rest => reset_append (legal_resets r hr) rest) noReset
  have begins : expect ") begin\n" afterClock = some _ := expect_append _ _
  have ifs : expect "    if (" afterUpdates = some _ := expect_append _ _
  have ends : expect "    end\n  end\n" last = some rest := expect_append _ _
  rw [text, item]
  simp only [expect_append, kind, process, clock, begins, readUpdates, ifs, reset_name, readResets,
    ends, Option.bind_eq_bind, Option.bind_some, Option.pure_def]
  rfl

theorem item_append {i : Item} (h : i.Legal) (rest : List Char) :
    item (i.text.toList ++ rest) = some (i.normal, rest) := by
  cases i with
  | port p => exact item_port h rest
  | net n =>
    cases n with
    | wire shape n => exact item_wire h rest
    | reg shape n value => exact item_reg h rest
  | assign a => exact item_assign h rest
  | process p => exact item_process h rest

theorem chars_intercalate (n : String) (others : List String) :
    (", ".intercalate (n :: others)).toList =
      n.toList ++ (String.join (others.map (", " ++ ·))).toList := by
  induction others generalizing n with
  | nil => simp
  | cons next more ih =>
    rw [String.intercalate_cons_cons, String.toList_append, String.toList_append, ih next]
    simp [String.toList_append]

theorem names_append (l : List String) (legal : ∀ n ∈ l, isName n = true) (rest : List Char) :
    names ((", ".intercalate l).toList ++ (");\n".toList ++ rest)) = (l, ");\n".toList ++ rest) := by
  have closing : Ends isNameChar (");\n".toList ++ rest) := ends_text rfl rest
  cases l with
  | nil =>
    have none : name (");\n".toList ++ rest) = none := by
      have hw : word (");\n".toList ++ rest) = ("", ");\n".toList ++ rest) :=
        word_text (t := "") rfl closing
      rw [name, hw]
      rfl
    rw [String.intercalate_nil, names]
    simp only [String.toList_empty, List.nil_append, none]
  | cons n others =>
    let item : Read String := fun cs => do name (← expect ", " cs)
    have each : ∀ a ∈ others, ∀ rest', Ends isNameChar rest' →
        item ((", " ++ a).toList ++ rest') = some (a, rest') := by
      intro a ha rest' ends
      rw [String.toList_append, List.append_assoc]
      simp only [item, expect_append, Option.bind_eq_bind, Option.bind_some,
        name_append (legal a (List.mem_cons_of_mem n ha)) ends]
    have next : ∀ a ∈ others, ∀ rest', Ends isNameChar ((", " ++ a).toList ++ rest') := by
      intro a _ rest'
      rw [String.toList_append, List.append_assoc]
      exact ends_text rfl _
    have stop : item (");\n".toList ++ rest) = none := by
      have none : expect ", " (");\n".toList ++ rest) = none :=
        expect_of_ends (p := (· == ',')) rfl (ends_text rfl rest)
      simp only [item, none, Option.bind_eq_bind, Option.bind_none]
    let tail := (String.join (others.map (", " ++ ·))).toList ++ (");\n".toList ++ rest)
    have enough : others.length ≤ tail.length := by
      have nonempty : ∀ a ∈ others, (", " ++ a).toList ≠ [] := by simp [String.toList_append]
      have short : others.length ≤ (String.join (others.map (", " ++ ·))).toList.length :=
        length_le_join others nonempty
      rw [List.length_append]
      omega
    have more : many item tail.length tail = (others, ");\n".toList ++ rest) := by
      have all := many_append (f := id) (Ends isNameChar) others each next closing stop tail.length enough
      rw [List.map_id] at all
      exact all
    have ends : Ends isNameChar tail := by
      cases others with
      | nil => simpa [tail] using closing
      | cons a others =>
        have := next a List.mem_cons_self
          ((String.join (others.map (", " ++ ·))).toList ++ (");\n".toList ++ rest))
        simpa [tail, String.toList_append] using this
    have first : name (n.toList ++ tail) = some (n, tail) :=
      name_append (legal n List.mem_cons_self) ends
    rw [chars_intercalate, List.append_assoc, names]
    simp only [tail, item] at first more ⊢
    simp only [first, more]

def items (m : Module) : List Item :=
  m.ports.map .port ++ (m.nets.map .net ++ (m.assigns.map .assign ++ m.processes.map .process))

theorem ofItems_items (m : Module) : ofItems m.name ((items m).map Item.normal) = m.normal := by
  simp [ofItems, items, Module.normal, Item.normal, Function.comp_def, List.filterMap_map]

theorem items_text (m : Module) : String.join ((items m).map Item.text) =
    String.join (m.ports.map Port.text) ++ String.join (m.nets.map Net.text) ++
      String.join (m.assigns.map Assign.text) ++ String.join (m.processes.map AlwaysBlock.text) := by
  simp [items, Item.text, Function.comp_def, String.join_append, String.append_assoc]

theorem items_legal {m : Module} (legal : m.Legal) : ∀ i ∈ items m, i.Legal := by
  intro i hi
  simp only [items, List.mem_append, List.mem_map] at hi
  rcases hi with ⟨p, hp, rfl⟩ | ⟨n, hn, rfl⟩ | ⟨a, ha, rfl⟩ | ⟨p, hp, rfl⟩
  · exact legal.declared p.name (List.mem_append_left _ (List.mem_map_of_mem hp))
  · exact legal.declared n.name (List.mem_append_right _ (List.mem_map_of_mem hn))
  · intro n hn
    exact legal.names n (List.mem_append_left _ (List.mem_flatMap.mpr ⟨a, ha, hn⟩))
  · intro n hn
    exact legal.names n (List.mem_append_right _ (List.mem_flatMap.mpr ⟨p, hp, hn⟩))

theorem chars_module (m : Module) : m.text.toList =
    "/* Generated by weld */\n\n".toList ++ ("module ".toList ++ (m.name.toList ++ ("(".toList ++
      ((", ".intercalate (m.ports.map (·.name))).toList ++ (");\n".toList ++
        ((String.join ((items m).map Item.text)).toList ++ "endmodule\n".toList)))))) := by
  have written : m.text = "/* Generated by weld */\n\n" ++ "module " ++ m.name ++ "(" ++
      ", ".intercalate (m.ports.map (·.name)) ++ ");\n" ++ String.join (m.ports.map Port.text) ++
      String.join (m.nets.map Net.text) ++ String.join (m.assigns.map Assign.text) ++
      String.join (m.processes.map AlwaysBlock.text) ++ "endmodule\n" := rfl
  rw [written, items_text]
  simp only [String.toList_append, List.append_assoc]

end Reader

open Reader in
/-- The text of a module with legal names says what the module is. -/
theorem read_text {m : Module} (legal : m.Legal) : read m.text = some m.normal := by
  let last := "endmodule\n".toList
  let body := (String.join ((items m).map Item.text)).toList ++ last
  let ports := m.ports.map (·.name)
  have chars : m.text.toList = "/* Generated by weld */\n\n".toList ++ ("module ".toList ++
      (m.name.toList ++ ("(".toList ++ ((", ".intercalate ports).toList ++
        (");\n".toList ++ body))))) := chars_module m
  have start : identifier (m.name.toList ++ ("(".toList ++ ((", ".intercalate ports).toList ++
      (");\n".toList ++ body)))) = some (m.name, _) :=
    identifier_append legal.name (ends_text rfl _)
  have header := names_append ports (fun n hn => legal.declared n (List.mem_append_left _ hn)) body
  have stop : item last = none := by simp [item, last, expect, strip]
  have lines : many item body.length body = ((items m).map Item.normal, last) :=
    many_join (fun i hi rest => item_append (items_legal legal i hi) rest) stop
  have closing : expect "endmodule\n" last = some [] :=
    expect_eq_some.mpr (List.append_nil last).symm
  have same : m.normal.ports.map (·.name) = ports := by
    simp [Module.normal, Module.normalPort, ports, Function.comp_def]
  rw [read, chars]
  simp only [expect_append, start, header, lines, closing, ofItems_items, same,
    Option.bind_eq_bind, Option.bind_some, Option.pure_def]
  rfl

end NetBridge.Verilog
