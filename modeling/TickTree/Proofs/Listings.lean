import TickTree.Proofs.Layout
import Mathlib.Data.List.Infix

/-!
# Reading listings back

A listing goes to readers that have nothing but its text. They take it line by line
(`Text.linesOf`), and a line word by word from its end (`Text.wordsOf`): the exits stand
there, whatever the free text in front of them says or imitates, since padding adds no words
and a label is one word (`Program.wordsOf_line`). An exit so comes back from its line alone
(`Program.readExits_line`).

Whether each instruction has one line is another matter. Names of tasks and literals are
quoted, and quoted text has no line break (`Text.unbroken_quoted`). Boards and keys of queries are
written as they are. The queries of a program are those of its definition, in order
(`Node.queries_of_compile`), so a listing has a line for each instruction just if no query of
the definition reads a board or a key with a line break in its name (`Node.listing_reads_back`).
-/

namespace TickTree

/-! ## Lines and words -/

namespace Text

/-- There is no line break in a text. -/
def Unbroken (s : String) : Prop := '\n' ∉ s.toList

instance (s : String) : Decidable (Unbroken s) := inferInstanceAs (Decidable (¬ _))

/-- Lines as one text, each ended by a line break. -/
def ended (lines : List String) : String := String.join (lines.map (· ++ "\n"))

/-- The lines of a text, each up to the line break that ends it. What follows the last line
break is no line. -/
def linesOf (s : String) : List String := (s.toList.splitOn '\n').dropLast.map String.ofList

/-- The words of a text: what stands between blanks. -/
def wordsOf (s : String) : List String :=
  ((s.toList.splitOn ' ').filter (· ≠ [])).map String.ofList

theorem linesOf_ended_cons (line : String) (lines : List String) :
    linesOf (ended (line :: lines)) =
      (line.toList.splitOn '\n').map String.ofList ++ linesOf (ended lines) := by
  have hsplit : (ended (line :: lines)).toList.splitOn '\n' =
      line.toList.splitOn '\n' ++ (ended lines).toList.splitOn '\n' := by
    simpa [ended] using List.splitOn_append_cons_self line.toList (ended lines).toList
  rw [linesOf, linesOf, hsplit, List.dropLast_append_of_ne_nil (List.splitOn_ne_nil _ _),
    List.map_append]

/-- Lines without line breaks come back. -/
theorem linesOf_ended {lines : List String} (h : ∀ line ∈ lines, Unbroken line) :
    linesOf (ended lines) = lines := by
  induction lines with
  | nil => rfl
  | cons line rest ih =>
    rw [linesOf_ended_cons, List.splitOn_eq_singleton (h line (.head _)),
      ih fun l hl => h l (.tail _ hl)]
    simp

/-- There are as many lines again only if none of them has been broken. -/
theorem length_linesOf_ended {lines : List String} :
    lines.length ≤ (linesOf (ended lines)).length ∧
      ((linesOf (ended lines)).length = lines.length → ∀ line ∈ lines, Unbroken line) := by
  induction lines with
  | nil => exact ⟨Nat.zero_le _, fun _ _ hmem => absurd hmem List.not_mem_nil⟩
  | cons line rest ih =>
    obtain ⟨hle, hunbroken⟩ := ih
    have hpieces : 0 < (line.toList.splitOn '\n').length :=
      List.length_pos_iff.2 (List.splitOn_ne_nil _ _)
    rw [linesOf_ended_cons, List.length_append, List.length_map, List.length_cons]
    refine ⟨by omega, fun hsame => List.forall_mem_cons.2 ⟨fun hbreak => ?_, hunbroken (by omega)⟩⟩
    obtain ⟨before, behind, hline⟩ := List.append_of_mem hbreak
    have hbefore : 0 < (before.splitOn '\n').length :=
      List.length_pos_iff.2 (List.splitOn_ne_nil _ _)
    have hbehind : 0 < (behind.splitOn '\n').length :=
      List.length_pos_iff.2 (List.splitOn_ne_nil _ _)
    rw [hline, List.splitOn_append_cons_self, List.length_append] at hsame
    omega

theorem wordsOf_append (s t : String) : wordsOf (s ++ " " ++ t) = wordsOf s ++ wordsOf t := by
  have hsplit : (s ++ " " ++ t).toList.splitOn ' ' =
      s.toList.splitOn ' ' ++ t.toList.splitOn ' ' := by
    simpa using List.splitOn_append_cons_self s.toList t.toList
  rw [wordsOf, hsplit, List.filter_append, List.map_append]
  rfl

/-- A text without blanks is one word. -/
theorem wordsOf_word {s : String} (hne : s ≠ "") (h : ' ' ∉ s.toList) : wordsOf s = [s] := by
  simp [wordsOf, List.splitOn_eq_singleton h, hne]

/-- Padding adds no words. -/
theorem wordsOf_padRight (width : Nat) (s : String) : wordsOf (padRight width s) = wordsOf s := by
  have hblanks (n : Nat) :
      wordsOf (String.ofList (s.toList ++ List.replicate n ' ')) = wordsOf s := by
    induction n with
    | zero => simp
    | succ n ih =>
      have hlast : String.ofList (s.toList ++ List.replicate (n + 1) ' ') =
          String.ofList (s.toList ++ List.replicate n ' ') ++ " " ++ "" := by
        simp [← String.toList_inj, List.replicate_succ']
      rw [hlast, wordsOf_append, ih]
      exact List.append_nil _
  exact hblanks _

end Text

/-! ## Exits at the end of a line -/

/-- The index that a label stands for in a program of so many instructions. -/
def readLabel (length : Nat) (label : String) : Option Nat :=
  if label = "SUCCESS" then some length
  else if label = "FAIL" then some (length + 1)
  else if label ≠ "" ∧ label.toList.all Char.isDigit then some (Nat.ofDigitChars 10 label.toList 0)
  else none

/-- The exits at the end of a line of the listing of so many instructions: after success, and
after failure. -/
def readExits (length : Nat) (line : String) : Option (Nat × Nat) :=
  match (Text.wordsOf line).reverse with
  | fail :: "->" :: "fail" :: ok :: "->" :: "ok" :: _ =>
      (readLabel length ok).bind fun onSuccess => (readLabel length fail).map (onSuccess, ·)
  | _ => none

/-- What the lines of a listing say of the exits of their instructions. -/
def readListing (listing : String) : List (Option (Nat × Nat)) :=
  (Text.linesOf listing).map (readExits (Text.linesOf listing).length)

theorem toList_toString (n : Nat) : (toString n).toList = Nat.toDigits 10 n := by
  rw [Nat.toString_eq_ofList_toDigits, String.toList_ofList]

theorem toString_ne_empty (n : Nat) : toString n ≠ "" := by
  rw [Nat.toString_eq_ofList_toDigits]
  exact fun hnil => Nat.toDigits_ne_nil (String.ofList_eq_empty_iff.1 hnil)

theorem isDigit_of_mem_toString {n : Nat} {c : Char} (h : c ∈ (toString n).toList) :
    c.isDigit = true := by
  rw [toList_toString] at h
  exact Nat.isDigit_of_mem_toDigits (by decide) (by decide) h

namespace Program

variable {K A : Type} {p : Program K A}

/-- The three kinds of labels. -/
theorem exitLabel_cases (p : Program K A) (index : Nat) :
    (index = p.length ∧ p.exitLabel index = "SUCCESS") ∨
      (index = p.length + 1 ∧ p.exitLabel index = "FAIL") ∨ p.exitLabel index = toString index := by
  rw [exitLabel, terminalStatus, successIndex, failIndex]
  by_cases hsuccess : index = p.length
  · simp [hsuccess]
  · by_cases hfail : index = p.length + 1 <;> simp [hfail, hsuccess]

/-- A label stands for its exit. -/
theorem readLabel_exitLabel (index : Nat) :
    readLabel p.length (p.exitLabel index) = some index := by
  rcases p.exitLabel_cases index with ⟨rfl, hlabel⟩ | ⟨rfl, hlabel⟩ | hlabel
  · rw [hlabel, readLabel, if_pos rfl]
  · rw [hlabel, readLabel, if_neg (by decide), if_pos rfl]
  · have hne (word : String) {c : Char} (hmem : c ∈ word.toList) (hletter : c.isDigit = false) :
        toString index ≠ word := by
      rintro rfl
      simp [isDigit_of_mem_toString hmem] at hletter
    rw [hlabel, readLabel, if_neg (hne "SUCCESS" (c := 'S') (by decide) rfl),
      if_neg (hne "FAIL" (c := 'F') (by decide) rfl)]
    have hdigits : (toString index).toList.all Char.isDigit :=
      List.all_eq_true.2 fun c hmem => isDigit_of_mem_toString hmem
    rw [if_pos ⟨toString_ne_empty index, hdigits⟩, toList_toString, Nat.ofDigitChars_ten_toDigits]

/-- A label is one word. -/
theorem wordsOf_exitLabel (index : Nat) :
    Text.wordsOf (p.exitLabel index) = [p.exitLabel index] := by
  rcases p.exitLabel_cases index with ⟨-, hlabel⟩ | ⟨-, hlabel⟩ | hlabel
  · rw [hlabel]
    decide
  · rw [hlabel]
    decide
  · rw [hlabel]
    refine Text.wordsOf_word (toString_ne_empty index) fun hblank => ?_
    cases isDigit_of_mem_toString hblank

/-- What stands at the end of a line. -/
def lineEnd (p : Program K A) (i : Instruction Nat K A) : String :=
  " ok -> " ++ Text.padRight 8 (p.exitLabel i.onSuccess) ++ " fail -> " ++ p.exitLabel i.onFail

/-- The words at the end of a line, whatever stands in front of them. -/
theorem wordsOf_lineEnd (front : String) (i : Instruction Nat K A) :
    Text.wordsOf (front ++ p.lineEnd i) = Text.wordsOf front ++
      ["ok", "->", p.exitLabel i.onSuccess, "fail", "->", p.exitLabel i.onFail] := by
  have hwords : front ++ p.lineEnd i =
      front ++ " " ++ ("ok" ++ " " ++ ("->" ++ " " ++
        (Text.padRight 8 (p.exitLabel i.onSuccess) ++ " " ++ ("fail" ++ " " ++
          ("->" ++ " " ++ p.exitLabel i.onFail))))) := by
    simp [lineEnd, ← String.toList_inj]
  have hok : Text.wordsOf "ok" = ["ok"] := by decide
  have hfail : Text.wordsOf "fail" = ["fail"] := by decide
  have harrow : Text.wordsOf "->" = ["->"] := by decide
  rw [hwords]
  simp only [Text.wordsOf_append, Text.wordsOf_padRight, wordsOf_exitLabel, hok, hfail, harrow,
    List.singleton_append]

theorem line_eq (p : Program K A) (index : Nat) (i : Instruction Nat K A) :
    p.line index i =
      Text.padLeft 4 (toString index) ++ ": " ++ Text.padRight 40 i.op.shown ++ p.lineEnd i := by
  simp [line, lineEnd, String.append_assoc]

/-- The exits of an instruction come back from its line. -/
theorem readExits_line (p : Program K A) (index : Nat) (i : Instruction Nat K A) :
    readExits p.length (p.line index i) = some (i.onSuccess, i.onFail) := by
  rw [readExits, line_eq, wordsOf_lineEnd, List.reverse_append]
  simp [readLabel_exitLabel]

end Program

/-! ## Line breaks -/

namespace Text

@[simp]
theorem unbroken_append {s t : String} : Unbroken (s ++ t) ↔ Unbroken s ∧ Unbroken t := by
  simp [Unbroken]

@[simp]
theorem unbroken_padRight {width : Nat} {s : String} :
    Unbroken (padRight width s) ↔ Unbroken s := by
  simp [Unbroken, padRight, filling]

@[simp]
theorem unbroken_padLeft {width : Nat} {s : String} : Unbroken (padLeft width s) ↔ Unbroken s := by
  simp [Unbroken, padLeft, filling]

@[simp]
theorem unbroken_repr (n : Nat) : Unbroken n.repr := fun hbreak => by
  cases isDigit_of_mem_toString hbreak

theorem unbroken_intercalate {separator : String} {items : List String} (h : Unbroken separator)
    (hitems : ∀ item ∈ items, Unbroken item) : Unbroken (separator.intercalate items) := by
  induction items with
  | nil => simp [Unbroken]
  | cons item rest ih =>
    cases rest with
    | nil => simpa using hitems
    | cons next rest =>
      rw [String.intercalate_cons_cons, unbroken_append, unbroken_append]
      exact ⟨⟨hitems item (.head _), h⟩, ih fun i hi => hitems i (.tail _ hi)⟩

theorem not_mem_toDigits (n : Nat) : '\n' ∉ Nat.toDigits 16 n := by
  induction n using Nat.strong_induction_on with
  | _ n ih =>
    have hdigit : ∀ d < 16, '\n' ≠ Nat.digitChar d := by decide
    rw [Nat.toDigits_eq_if (by decide)]
    split
    · simp [hdigit n ‹_›]
    · simp [ih (n / 16) (by omega), hdigit (n % 16) (Nat.mod_lt n (by decide))]

theorem not_mem_escape (c : Char) : '\n' ∉ escape c := by
  unfold escape
  split
  all_goals try decide
  rename_i hnewline _ _ _
  split
  · simp [codePoint, not_mem_toDigits]
  · simpa using Ne.symm hnewline

/-- Quoted text has no line break, whatever is quoted. -/
@[simp]
theorem unbroken_quoted (s : String) : Unbroken (quoted s) := by
  simp [Unbroken, quoted, not_mem_escape]

end Text

/-- The board and the key of a query are without line breaks. -/
def Query.Unbroken (q : Query) : Prop := Text.Unbroken q.board.name ∧ Text.Unbroken q.key

instance (q : Query) : Decidable q.Unbroken := inferInstanceAs (Decidable (_ ∧ _))

/-- The query of an instruction. -/
def Op.query? {K A : Type} : Op K A → Option Query
  | .query q => some q
  | _ => none

@[simp]
theorem Predicate.unbroken_shown (predicate : Predicate) : Text.Unbroken predicate.shown := by
  cases predicate with
  | equals literal =>
    have hword : Text.Unbroken "== " := by decide
    simp [shown, hword]
  | _ => decide

/-- Of all that an instruction can do, only a query is shown with a line break, and only for what
it reads. -/
theorem Op.unbroken_shown {K A : Type} (op : Op K A) :
    Text.Unbroken op.shown ↔ ∀ q, op.query? = some q → q.Unbroken := by
  cases op with
  | query q =>
    have hquery : Text.Unbroken "query " := by decide
    have hdot : Text.Unbroken "." := by decide
    have hblank : Text.Unbroken " " := by decide
    change Text.Unbroken ("query " ++ q.board.name ++ "." ++ q.key ++ " " ++ q.predicate.shown) ↔ _
    simp [query?, Query.Unbroken, hquery, hdot, hblank]
  | task t =>
    have hword : Text.Unbroken "task " := by decide
    change Text.Unbroken ("task " ++ Text.quoted t.name) ↔ _
    simp [query?, hword]
  | subTree link =>
    have hwords : Text.Unbroken "sub_tree (" ∧ Text.Unbroken " instructions)" := by decide
    change Text.Unbroken ("sub_tree (" ++ toString link.size ++ " instructions)") ↔ _
    simp [query?, hwords]
  | randomBranch table =>
    have hwords : Text.Unbroken "random_branch " ∧ Text.Unbroken "[" ∧ Text.Unbroken "]" := by
      decide
    have htable : Text.Unbroken (", ".intercalate (table.map fun i => toString i)) :=
      Text.unbroken_intercalate (by decide) (by simp)
    change Text.Unbroken ("random_branch " ++ Text.bracketed (table.map fun i => toString i)) ↔ _
    simpa [query?, Text.bracketed, hwords] using htable
  | repeatStart counter =>
    have hword : Text.Unbroken "repeat_start counter=" := by decide
    change Text.Unbroken ("repeat_start counter=" ++ toString counter) ↔ _
    simp [query?, hword]
  | repeatCounter goal body =>
    have hwords : Text.Unbroken "repeat_counter goal=" ∧ Text.Unbroken " body=" := by decide
    change Text.Unbroken
      ("repeat_counter goal=" ++ toString goal.toNat ++ " body=" ++ toString body) ↔ _
    simp [query?, hwords]
  | hangingSucceed =>
    have hword : Text.Unbroken "hanging_succeed" := by decide
    exact iff_of_true hword (by simp [query?])
  | hangingFail =>
    have hword : Text.Unbroken "hanging_fail" := by decide
    exact iff_of_true hword (by simp [query?])

namespace Program

variable {K A : Type} (p : Program K A)

@[simp]
theorem unbroken_exitLabel (index : Nat) : Text.Unbroken (p.exitLabel index) := by
  rcases p.exitLabel_cases index with ⟨-, hlabel⟩ | ⟨-, hlabel⟩ | hlabel
  · rw [hlabel]
    decide
  · rw [hlabel]
    decide
  · rw [hlabel]
    exact Text.unbroken_repr index

theorem unbroken_line (index : Nat) (i : Instruction Nat K A) :
    Text.Unbroken (p.line index i) ↔ ∀ q, i.op.query? = some q → q.Unbroken := by
  have hwords : Text.Unbroken ": " ∧ Text.Unbroken " ok -> " ∧ Text.Unbroken " fail -> " := by
    decide
  simp [line, hwords, Op.unbroken_shown]

/-- The queries of a program, first to last. -/
def queries (p : Program K A) : List Query := p.instructions.filterMap (·.op.query?)

theorem lines_eq : p.lines = p.instructions.mapIdx p.line := by
  rw [lines, List.mapIdx_eq_zipIdx_map]

theorem length_lines : p.lines.length = p.length := by
  rw [lines_eq, List.length_mapIdx, length]

theorem getElem?_lines {index : Nat} {i : Instruction Nat K A} (h : p.get? index = some i) :
    p.lines[index]? = some (p.line index i) := by
  rw [lines_eq, List.getElem?_mapIdx]
  exact congrArg (Option.map (p.line index)) h

theorem unbroken_lines :
    (∀ line ∈ p.lines, Text.Unbroken line) ↔ ∀ q ∈ p.queries, q.Unbroken := by
  simp only [lines_eq, List.mem_mapIdx, queries, List.mem_filterMap]
  constructor
  · rintro h q ⟨i, hi, hq⟩
    obtain ⟨index, hlt, rfl⟩ := List.mem_iff_getElem.1 hi
    exact (p.unbroken_line index _).1 (h _ ⟨index, hlt, rfl⟩) q hq
  · rintro h line ⟨index, hlt, rfl⟩
    exact (p.unbroken_line index _).2 fun q hq => h q ⟨_, List.getElem_mem hlt, hq⟩

/-- There is a line for each instruction just if the queries are without line breaks. -/
theorem length_linesOf_listing :
    (Text.linesOf p.listing).length = p.length ↔ ∀ q ∈ p.queries, q.Unbroken := by
  rw [← unbroken_lines]
  constructor
  · intro h
    exact Text.length_linesOf_ended.2 (h.trans p.length_lines.symm)
  · intro h
    have hlines : Text.linesOf p.listing = p.lines := Text.linesOf_ended h
    rw [hlines, length_lines]

/-- From a listing with a line for each instruction all exits come back. -/
theorem readListing_listing (h : ∀ q ∈ p.queries, q.Unbroken) :
    readListing p.listing = p.instructions.map fun i => some (i.onSuccess, i.onFail) := by
  have hlines : Text.linesOf p.listing = p.lines := Text.linesOf_ended (p.unbroken_lines.2 h)
  rw [readListing, hlines, length_lines, lines_eq]
  refine List.ext_getElem? fun index => ?_
  simp only [List.getElem?_map, List.getElem?_mapIdx, Option.map_map, Function.comp_def,
    readExits_line]

end Program

/-! ## Queries of a definition -/

section

variable {K A : Type}

mutual

/-- The queries of a definition, in order. -/
def Node.queries : Node K A → List Query
  | .mk (.query q) children _ => q :: queriesOf children
  | .mk _ children _ => queriesOf children

/-- The queries of definitions in a row. -/
def queriesOf : List (Node K A) → List Query
  | [] => []
  | node :: rest => node.queries ++ queriesOf rest

end

/-- The queries of code, first to last. -/
def Code.queries (code : Code K A) : List Query := code.filterMap (·.op.query?)

@[simp]
theorem Code.queries_append (c d : Code K A) : Code.queries (c ++ d) = c.queries ++ d.queries :=
  List.filterMap_append

@[simp]
theorem Code.queries_route (r : Routing) (c : Code K A) : Code.queries (c.route r) = c.queries := by
  simp [queries, route, List.filterMap_map, Instruction.mapExits]

@[simp]
theorem Code.queries_loopHead (start : Nat) (count : Option UInt32) :
    Code.queries (loopHead start count : Code K A) = [] := by
  rw [loopHead]
  cases bound? count with
  | none => rfl
  | some goal => rfl

@[simp]
theorem Code.queries_single (op : Op K A) :
    Code.queries (single op : Code K A) = op.query?.toList := by
  cases hquery : op.query? <;> simp [queries, single, hquery]

theorem queries_assembleChain {children : List (Node K A)}
    (ih : ∀ child ∈ children, ∀ {path start code},
      child.assemble path start = .ok code → code.queries = child.queries)
    {carry : Verdict} {path : Path} {place start : Nat} {code : Code K A}
    (h : assembleChain carry path place start children = .ok code) :
    code.queries = queriesOf children := by
  induction children generalizing place start code with
  | nil => cases h; rfl
  | cons child rest ihrest =>
    by_cases hrest : rest = []
    · subst hrest
      rw [assembleChain] at h
      simp [queriesOf, ih child (.head _) h]
    · obtain ⟨first, others, hfirst, hothers, rfl⟩ := assembleChain_cons hrest h
      simp [queriesOf, ih child (.head _) hfirst, ihrest (fun c hc => ih c (.tail _ hc)) hothers]

theorem queries_assembleBranches {children : List (Node K A)}
    (ih : ∀ child ∈ children, ∀ {path start code},
      child.assemble path start = .ok code → code.queries = child.queries)
    {path : Path} {place start : Nat} {code : Code K A} {table : List Nat}
    (h : assembleBranches path place start children = .ok (code, table)) :
    code.queries = queriesOf children := by
  induction children generalizing place start code table with
  | nil => cases h; rfl
  | cons child rest ihrest =>
    obtain ⟨first, others, targets, hfirst, hothers, rfl, rfl⟩ := assembleBranches_cons h
    simp [queriesOf, ih child (.head _) hfirst, ihrest (fun c hc => ih c (.tail _ hc)) hothers]

/-- The code of a node has the queries of the node. -/
theorem queries_assemble {node : Node K A} {path : Path} {start : Nat} {code : Code K A}
    (h : node.assemble path start = .ok code) : code.queries = node.queries := by
  induction node using Node.induction generalizing path start code with
  | mk kind children weight ih =>
    cases kind with
    | task t =>
      obtain ⟨run, -, rfl, rfl⟩ := assemble_task h
      rfl
    | query q =>
      obtain ⟨rfl, rfl⟩ := assemble_query h
      rfl
    | subTree link =>
      obtain ⟨l, rfl, rfl, rfl⟩ := assemble_subTree h
      rfl
    | sequence => exact queries_assembleChain (fun c hc => ih c hc) (assemble_sequence h).2
    | selector => exact queries_assembleChain (fun c hc => ih c hc) (assemble_selector h).2
    | random =>
      obtain ⟨table, rest, hrest, -, rfl⟩ := assemble_random h
      simp [Node.queries, Op.query?, queries_assembleBranches (fun c hc => ih c hc) hrest]
    | whileLoop count =>
      obtain ⟨condition, action, first, second, rfl, hfirst, hsecond, rfl⟩ := assemble_whileLoop h
      simp [Node.queries, queriesOf, ih condition (.head _) hfirst,
        ih action (.tail _ (.head _)) hsecond]
    | succeed =>
      rcases assemble_succeed h with ⟨rfl, rfl⟩ | ⟨child, inner, rfl, hinner, rfl⟩
      · rfl
      · simp [Node.queries, queriesOf, ih child (.head _) hinner]
    | fail =>
      rcases assemble_fail h with ⟨rfl, rfl⟩ | ⟨child, inner, rfl, hinner, rfl⟩
      · rfl
      · simp [Node.queries, queriesOf, ih child (.head _) hinner]
    | invert =>
      obtain ⟨child, inner, rfl, hinner, rfl⟩ := assemble_invert h
      simp [Node.queries, queriesOf, ih child (.head _) hinner]
    | repeatLoop count breakOnFail =>
      obtain ⟨child, body, rfl, hbody, rfl⟩ := assemble_repeatLoop h
      simp [Node.queries, queriesOf, ih child (.head _) hbody]

/-- The queries of a program are those of its definition, in order. -/
theorem Node.queries_of_compile {root : Node K A} {p : Program K A} (h : compile root = .ok p) :
    p.queries = root.queries := by
  obtain ⟨code, hcode, hseal⟩ := bind_eq_ok_iff.1 h
  rw [← queries_assemble hcode, Code.seal_eq_ok hseal]
  simp [Program.queries, Code.resolved, Code.queries, List.filterMap_map, Instruction.mapExits]

/-- The listing of a compiled definition. Whatever the names in it, each instruction has a line
that begins with its index, ends with its exits and gives them back. The listing ends each of
these lines; a reader finds at least as many as there are instructions, and just as many if no
query has a line break in the name of its board or its key. Then all exits come back from the
listing. -/
theorem Node.listing_reads_back {root : Node K A} {p : Program K A} (h : compile root = .ok p) :
    (∀ index i, p.get? index = some i → ∃ line shown, p.lines[index]? = some line ∧
        line = Text.padLeft 4 (toString index) ++ ":" ++ shown ++ p.lineEnd i ∧
        readExits p.length line = some (i.onSuccess, i.onFail)) ∧
      p.lines.length = p.length ∧ p.listing = Text.ended p.lines ∧
      p.length ≤ (Text.linesOf p.listing).length ∧
      ((Text.linesOf p.listing).length = p.length ↔ ∀ q ∈ root.queries, q.Unbroken) ∧
      ((∀ q ∈ root.queries, q.Unbroken) → Text.linesOf p.listing = p.lines ∧
        readListing p.listing = p.instructions.map fun i => some (i.onSuccess, i.onFail)) := by
  rw [← queries_of_compile h]
  refine ⟨fun index i hget => ?_, p.length_lines, rfl, ?_, p.length_linesOf_listing, fun hq => ?_⟩
  · refine ⟨_, " " ++ Text.padRight 40 i.op.shown, p.getElem?_lines hget, ?_,
      p.readExits_line index i⟩
    rw [Program.line_eq]
    simp [← String.toList_inj]
  · rw [← p.length_lines]
    exact Text.length_linesOf_ended.1
  · exact ⟨Text.linesOf_ended (p.unbroken_lines.2 hq), p.readListing_listing hq⟩

/-- Names that imitate the end of a line and are quoted, or stand between blanks, do no harm. -/
theorem Node.listing_reads_back_imitated :
    let root : Node Unit Unit := .sequence
      [.query "a ok -> SUCCESS  fail -> FAIL" "b" "c\n ok -> 7", .query "self" "d" "set"]
    ∃ p, compile root = .ok p ∧ readListing p.listing = [some (1, 3), some (2, 3)] := by
  intro root
  have hqueries : ∀ q ∈ root.queries, q.Unbroken := by decide
  obtain ⟨-, -, -, -, -, hreads⟩ := listing_reads_back (show compile root = .ok _ from rfl)
  exact ⟨_, rfl, (hreads hqueries).2⟩

/-- The line of a query is torn by the name of its board: the first of the two lines has no
exits. -/
theorem Node.listing_torn :
    ∃ p, compile (.query "a\nb" "k" "set" : Node Unit Unit) = .ok p ∧ p.length = 1 ∧
      (Text.linesOf p.listing).length = 2 ∧ readListing p.listing = [none, some (2, 3)] := by
  refine ⟨_, rfl, rfl, ?_, ?_⟩ <;> decide +kernel

end

end TickTree
