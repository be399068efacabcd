import CallChart.Dot.Render
import Mathlib.Data.List.Count

/-! Reading layout requests back from their DOT text. Inside quotes a backslash takes the next character as it is, so a
quote ends a name exactly when no backslash escapes it, and no name reaches into the text after it. The nodes come back
in their order, and the edges grouped by the node they leave. -/
namespace CallChart

namespace LayoutRequest

/-! ### Grouped edges -/

section Grouped

variable {nodes : List String} {edges : List (String × String)} {request : LayoutRequest}

instance : Append LayoutRequest := ⟨fun a b => ⟨a.nodes ++ b.nodes, a.edges ++ b.edges⟩⟩

/-- The edges in the order of the nodes they leave, and those of one node in the order of the request. -/
def grouped (request : LayoutRequest) : LayoutRequest :=
  ⟨request.nodes, request.nodes.flatMap fun name => request.edges.filter fun e => e.1 == name⟩

@[simp] theorem nodes_append (a b : LayoutRequest) : (a ++ b).nodes = a.nodes ++ b.nodes := rfl

@[simp] theorem edges_append (a b : LayoutRequest) : (a ++ b).edges = a.edges ++ b.edges := rfl

@[ext] theorem ext {a b : LayoutRequest} (hnodes : a.nodes = b.nodes) (hedges : a.edges = b.edges) : a = b := by
  cases a
  cases b
  congr

theorem append_assoc (a b c : LayoutRequest) : a ++ b ++ c = a ++ (b ++ c) :=
  ext (List.append_assoc _ _ _) (List.append_assoc _ _ _)

theorem filter_filter_source (edges : List (String × String)) (name other : String) :
    ((edges.filter fun e => e.1 == other).filter fun e => e.1 == name) =
      if other = name then edges.filter fun e => e.1 == name else [] := by
  rw [List.filter_filter]
  split
  · next h => simp [h]
  · next h =>
    refine List.filter_eq_nil_iff.mpr fun e _ => ?_
    simp only [Bool.and_eq_true, beq_iff_eq]
    rintro ⟨hname, hother⟩
    exact h (hother.symm.trans hname)

theorem flatMap_ite_of_notMem {name : String} (h : name ∉ nodes) (edges : List (String × String)) :
    (nodes.flatMap fun n => if n = name then edges else []) = [] := by
  refine List.flatMap_eq_nil_iff.mpr fun n hn => if_neg ?_
  rintro rfl
  exact h hn

/-- A node that is listed once brings its edges once. -/
theorem flatMap_ite_of_mem {name : String} (hnodes : nodes.Nodup) (h : name ∈ nodes) (edges : List (String × String)) :
    (nodes.flatMap fun n => if n = name then edges else []) = edges := by
  induction nodes with
  | nil => cases h
  | cons n nodes ih =>
    obtain ⟨hn, hnodes⟩ := List.nodup_cons.mp hnodes
    rw [List.flatMap_cons]
    obtain rfl | hmem := List.mem_cons.mp h
    · rw [if_pos rfl, flatMap_ite_of_notMem hn, List.append_nil]
    · have hne : n ≠ name := by
        rintro rfl
        exact hn hmem
      rw [if_neg hne, ih hnodes hmem, List.nil_append]

/-- Grouping keeps the edges that leave a node as they stand. -/
theorem filter_grouped (hnodes : request.nodes.Nodup) (hedges : ∀ e ∈ request.edges, e.1 ∈ request.nodes)
    (name : String) :
    (request.grouped.edges.filter fun e => e.1 == name) = request.edges.filter fun e => e.1 == name := by
  simp only [grouped, List.filter_flatMap, filter_filter_source]
  by_cases hname : name ∈ request.nodes
  · exact flatMap_ite_of_mem hnodes hname _
  · rw [flatMap_ite_of_notMem hname]
    refine (List.filter_eq_nil_iff.mpr fun e he => ?_).symm
    rw [beq_iff_eq]
    rintro rfl
    exact hname (hedges e he)

/-- Lists with the same edges at each source hold the same edges. -/
theorem perm_of_filter_source {a b : List (String × String)}
    (h : ∀ name, (a.filter fun e => e.1 == name) = b.filter fun e => e.1 == name) : a.Perm b := by
  refine List.perm_iff_count.mpr fun e => ?_
  have hcount (edges : List (String × String)) : (edges.filter fun d => d.1 == e.1).count e = edges.count e :=
    List.count_filter (beq_self_eq_true e.1)
  rw [← hcount a, ← hcount b, h e.1]

end Grouped
end LayoutRequest

namespace Dot

/-! ### The decoder -/

section Decoder

/-- The parts of a statement. -/
inductive Token where
  | name (text : String)
  | mark (c : Char)
  deriving DecidableEq, Repr

/-- Where a character stands: between names, in the quotes of a name of which something has been read, or there after a
backslash. -/
inductive Place where
  | outside
  | inside (read : List Char)
  | escaped (read : List Char)
  deriving DecidableEq, Repr

def lex : Place → List Char → Option (List Token)
  | .outside, [] => some []
  | .inside _, [] => none
  | .escaped _, [] => none
  | .outside, c :: rest =>
    if c = '"' then lex (.inside []) rest
    else if c = ' ' ∨ c = '\n' then lex .outside rest
    else (lex .outside rest).map (.mark c :: ·)
  | .inside read, c :: rest =>
    if c = '"' then (lex .outside rest).map (.name (String.ofList read) :: ·)
    else if c = '\\' then lex (.escaped read) rest
    else lex (.inside (read ++ [c])) rest
  | .escaped read, c :: rest => lex (.inside (read ++ [c])) rest

/-- Statements up to the closing brace that ends the text. -/
def statements : List Token → Option LayoutRequest
  | [.mark '\x7d'] => some ⟨[], []⟩
  | .name node :: .mark ';' :: rest => (statements rest).map (⟨[node], []⟩ ++ ·)
  | .name source :: .mark '-' :: .mark '>' :: .name target :: .mark ';' :: rest =>
    (statements rest).map (⟨[], [(source, target)]⟩ ++ ·)
  | _ => none

def readStatements (text : List Char) : Option LayoutRequest := (lex .outside text).bind statements

/-- A text without its first line. -/
def dropLine (text : List Char) : List Char := (text.dropWhile (· ≠ '\n')).drop 1

/-- The first two lines open the graph and set the direction. -/
def decode (text : String) : Option LayoutRequest := readStatements (dropLine (dropLine text.toList))

end Decoder

/-! ### Characters -/

section Characters

/-- The escaped text of a name holds no quote that ends it. -/
theorem lex_escape (read name rest : List Char) :
    lex (.inside read) (escape name ++ '"' :: rest) =
      (lex .outside rest).map (.name (String.ofList (read ++ name)) :: ·) := by
  induction name generalizing read with
  | nil => simp [escape, lex]
  | cons c name ih =>
    have hread : read ++ c :: name = (read ++ [c]) ++ name := by simp
    rw [hread, ← ih (read ++ [c]), escape, List.flatMap_cons]
    split
    · rfl
    · next hc =>
      simp only [Bool.or_eq_true, decide_eq_true_eq, not_or] at hc
      simp [lex, hc.1, hc.2, escape]

theorem lex_quote (name : String) (rest : List Char) :
    lex .outside ((quote name).toList ++ rest) = (lex .outside rest).map (.name name :: ·) := by
  have h : lex (.inside []) (escape name.toList ++ '"' :: rest) = _ := lex_escape [] name.toList rest
  simpa [quote, lex] using h

theorem lex_indent (rest : List Char) : lex .outside (' ' :: ' ' :: rest) = lex .outside rest := rfl

theorem lex_end (rest : List Char) :
    lex .outside (';' :: '\n' :: rest) = (lex .outside rest).map (.mark ';' :: ·) := rfl

theorem lex_arrow (rest : List Char) :
    lex .outside (' ' :: '-' :: '>' :: ' ' :: rest) =
      (lex .outside rest).map fun tokens => .mark '-' :: .mark '>' :: tokens :=
  Option.map_map _ _ _

theorem lex_nodeLine (name : String) (rest : List Char) :
    lex .outside ((nodeLine name).toList ++ rest) =
      (lex .outside rest).map fun tokens => .name name :: .mark ';' :: tokens := by
  have htext : (nodeLine name).toList ++ rest = ' ' :: ' ' :: ((quote name).toList ++ ';' :: '\n' :: rest) := by
    simp [nodeLine]
  rw [htext, lex_indent, lex_quote, lex_end, Option.map_map]
  rfl

theorem lex_linkLine (source target : String) (rest : List Char) :
    lex .outside ((linkLine source target).toList ++ rest) =
      (lex .outside rest).map fun tokens =>
        .name source :: .mark '-' :: .mark '>' :: .name target :: .mark ';' :: tokens := by
  have htext : (linkLine source target).toList ++ rest =
      ' ' :: ' ' :: ((quote source).toList ++
        ' ' :: '-' :: '>' :: ' ' :: ((quote target).toList ++ ';' :: '\n' :: rest)) := by
    simp [linkLine]
  rw [htext, lex_indent, lex_quote, lex_arrow, lex_quote, lex_end, Option.map_map, Option.map_map, Option.map_map]
  rfl

end Characters

/-! ### Statements -/

section Statements

variable {a b : String} {x y : LayoutRequest}

/-- Where a text stands before others, a part of a request is read, and then the others are. -/
def Writes (text : String) (part : LayoutRequest) : Prop :=
  ∀ rest, readStatements (text.toList ++ rest) = (readStatements rest).map (part ++ ·)

theorem writes_nodeLine (name : String) : Writes (nodeLine name) ⟨[name], []⟩ := by
  intro rest
  rw [readStatements, readStatements, lex_nodeLine, Option.bind_map, Option.map_bind]
  rfl

theorem writes_linkLine (source target : String) : Writes (linkLine source target) ⟨[], [(source, target)]⟩ := by
  intro rest
  rw [readStatements, readStatements, lex_linkLine, Option.bind_map, Option.map_bind]
  rfl

theorem writes_empty : Writes "" ⟨[], []⟩ := by
  intro rest
  exact Option.map_id'.symm

theorem Writes.of_eq (ha : Writes a x) (h : x = y) : Writes a y := h ▸ ha

theorem Writes.append (ha : Writes a x) (hb : Writes b y) : Writes (a ++ b) (x ++ y) := by
  intro rest
  rw [String.toList_append, List.append_assoc, ha, hb, Option.map_map]
  refine congrArg (Option.map · _) (funext fun r => ?_)
  exact (LayoutRequest.append_assoc x y r).symm

theorem Writes.join {α : Type} {items : List α} {write : α → String} {part : α → LayoutRequest}
    (h : ∀ item ∈ items, Writes (write item) (part item)) :
    Writes (String.join (items.map write))
      ⟨items.flatMap fun item => (part item).nodes, items.flatMap fun item => (part item).edges⟩ := by
  induction items with
  | nil => exact writes_empty
  | cons item items ih =>
    obtain ⟨hitem, hitems⟩ := List.forall_mem_cons.mp h
    rw [List.map_cons, String.join_cons]
    exact hitem.append (ih hitems)

theorem writes_block (edges : List (String × String)) (name : String) :
    Writes (block edges name) ⟨[name], edges.filter fun e => e.1 == name⟩ := by
  have hlinks : ∀ e ∈ edges.filter fun e => e.1 == name, Writes (linkLine name e.2) ⟨[], [e]⟩ := by
    intro e he
    obtain rfl : e.1 = name := beq_iff_eq.mp (List.mem_filter.mp he).2
    exact writes_linkLine e.1 e.2
  refine ((writes_nodeLine name).append (Writes.join hlinks)).of_eq (LayoutRequest.ext ?_ ?_)
  · simp
  · simp

theorem writes_blocks (request : LayoutRequest) :
    Writes (String.join (request.nodes.map (block request.edges))) request.grouped := by
  have h := Writes.join fun name (_ : name ∈ request.nodes) => writes_block request.edges name
  refine h.of_eq (LayoutRequest.ext ?_ rfl)
  simp [LayoutRequest.grouped]

end Statements

/-! ### Whole texts -/

section Texts

theorem dropLine_append {line : List Char} (h : '\n' ∉ line) (rest : List Char) :
    dropLine (line ++ '\n' :: rest) = rest := by
  have hline : ∀ c ∈ line, decide (c ≠ '\n') = true := by
    intro c hc
    refine decide_eq_true ?_
    rintro rfl
    exact h hc
  rw [dropLine, List.dropWhile_append_of_pos hline, List.dropWhile_cons_of_neg (by simp), List.drop_one, List.tail_cons]

theorem decode_render_grouped {rankDir : String} (h : '\n' ∉ rankDir.toList) (request : LayoutRequest) :
    decode (render request rankDir) = some request.grouped := by
  have hopen : "digraph callgraph \x7b\n  rankdir=".toList =
      "digraph callgraph \x7b".toList ++ '\n' :: "  rankdir=".toList := by decide
  have hend : ";\n".toList = [';', '\n'] := by decide
  have hclose : "\x7d\n".toList = ['\x7d', '\n'] := by decide
  have htext : (render request rankDir).toList =
      "digraph callgraph \x7b".toList ++ '\n' :: (("  rankdir=".toList ++ rankDir.toList ++ [';']) ++
        '\n' :: ((String.join (request.nodes.map (block request.edges))).toList ++ ['\x7d', '\n'])) := by
    unfold render
    simp only [String.toList_append, hopen, hend, hclose, List.append_assoc, List.cons_append, List.nil_append]
  have hdirection : '\n' ∉ "  rankdir=".toList ++ rankDir.toList ++ [';'] := by simp [h]
  have hnone : readStatements ['\x7d', '\n'] = some ⟨[], []⟩ := rfl
  rw [decode, htext, dropLine_append (by decide), dropLine_append hdirection, writes_blocks, hnone, Option.map_some]
  refine congrArg some (LayoutRequest.ext ?_ ?_)
  · exact List.append_nil _
  · exact List.append_nil _

/-- The text of a request is read back as the request with its edges grouped by the node they leave: no name closes its
quotes early or runs into the next statement. -/
theorem decode_render (request : LayoutRequest) (rankDir : String) (hrank : '\n' ∉ rankDir.toList)
    (hnodes : request.nodes.Nodup) (hedges : ∀ e ∈ request.edges, e.1 ∈ request.nodes) :
    decode (render request rankDir) = some request.grouped ∧
      request.grouped.nodes = request.nodes ∧ request.grouped.edges.Perm request.edges ∧
      (∀ name, (request.grouped.edges.filter fun e => e.1 == name) = request.edges.filter fun e => e.1 == name) ∧
      ∀ other otherDir, '\n' ∉ otherDir.toList → render other otherDir = render request rankDir →
        other.grouped = request.grouped := by
  have hfilter := LayoutRequest.filter_grouped hnodes hedges
  refine ⟨decode_render_grouped hrank request, rfl, LayoutRequest.perm_of_filter_source hfilter, hfilter, ?_⟩
  intro other otherDir hother hsame
  refine Option.some_inj.mp ?_
  rw [← decode_render_grouped hother other, hsame, decode_render_grouped hrank request]

/-- Names with quotes, a backslash at the end, the text of a statement and a line break. -/
def awkward : LayoutRequest where
  nodes := ["say \"hi\"", "back\\", "\"; \x7d", "two\nlines"]
  edges := [("back\\", "\"; \x7d"), ("say \"hi\"", "back\\"), ("back\\", "two\nlines")]

theorem awkward_names_decoded :
    decode (render awkward "LR") =
      some ⟨awkward.nodes, [("say \"hi\"", "back\\"), ("back\\", "\"; \x7d"), ("back\\", "two\nlines")]⟩ :=
  (decode_render awkward "LR" (by decide) (by decide) (by decide)).1

end Texts

end Dot
end CallChart
