import ContractVerifier.Flow.Search

/-!
# Drawing a flow graph

The reachable blocks as boxes, an edge for each target of a terminator, loop headers in bold, in the
DOT language.
-/

namespace ContractVerifier.Flow

/-- A statement of a drawing. -/
inductive Mark where
  | node (id : Node) (label : String)
  | edge (source target : Node) (label : String)
  | bold (id : Node)
deriving DecidableEq

/-- The labels of the edges from a block with terminator `t` to block `i`. -/
def edgeLabels (t : Option Terminator) (i : Node) : List String :=
  match t with
  | some (.branch e t f) =>
    (if t = i then ["[" ++ e.text ++ "]"] else []) ++ (if f = i then ["[!(" ++ e.text ++ ")]"] else [])
  | some (.goto t) => if t = i then [""] else []
  | _ => []

/-- Block `i` and its edges. -/
def blockMarks (i : Node) (b : Block) : List Mark :=
  .node i (toString i ++ "\n" ++ b.label) ::
    b.successors.eraseDups.flatMap fun s => (edgeLabels b.term s).map (.edge i s)

theorem length_eraseDups_le (is : List Node) : is.eraseDups.length ≤ is.length := by
  cases is with
  | nil => simp
  | cons i is =>
    have := List.length_filter_le (fun j => !j == i) is
    have := length_eraseDups_le (is.filter fun j => !j == i)
    rw [List.eraseDups_cons, List.length_cons, List.length_cons]
    omega
termination_by is.length
decreasing_by
  have := List.length_filter_le (fun j => !j == i) is
  simp only [List.length_cons]
  omega

namespace Graph

/-- `s` goes to the end of the queue unless it is drawn or waits already. -/
def enqueue (unseen waiting : List Node) (s : Node) (known : Bool) : List Node :=
  if (known && !unseen.contains s) || waiting.contains s then waiting else waiting ++ [s]

theorem length_enqueued_le (unseen : List Node) (known : Node → Bool) (ss waiting : List Node) :
    (ss.foldl (fun w s => enqueue unseen w s (known s)) waiting).length ≤ waiting.length + ss.length := by
  induction ss generalizing waiting with
  | nil => simp
  | cons s ss ih =>
    have hone : (enqueue unseen waiting s (known s)).length ≤ waiting.length + 1 := by
      unfold enqueue
      split <;> simp
    have := ih (enqueue unseen waiting s (known s))
    simp only [List.foldl_cons, List.length_cons]
    omega

/-- Draws the waiting blocks and what they lead to.  A number in a label may be too long to be
written. -/
def marks (g : Graph) (unseen : List Node) : List Node → Except Fault (List Mark)
  | [] => .ok []
  | n :: waiting =>
    match g.block? n with
    | none => .error .noSuchBlock
    | some b =>
      if n ∈ unseen then
        if !b.isWritable then .error .numeralTooLong
        else
          let unseen' := unseen.erase n
          let waiting' := b.successors.eraseDups.foldl
            (fun w s => enqueue unseen' w s (g.block? s).isSome) waiting
          match marks g unseen' waiting' with
          | .error f => .error f
          | .ok ms => .ok (blockMarks n b ++ ms)
      else marks g unseen waiting
termination_by waiting => 2 * unseen.length + waiting.length
decreasing_by
  · have := length_enqueued_le (unseen.erase n) (fun s => (g.block? s).isSome)
      b.successors.eraseDups waiting
    have := length_eraseDups_le b.successors
    have := b.length_successors_le
    have := length_erase_lt ‹n ∈ unseen›
    simp only [List.length_cons]
    omega
  · simp

/-- The reachable blocks with their edges, then the loop headers. -/
def drawing (g : Graph) : Except Fault (List Mark) := do
  let ms ← g.marks g.nodes [g.entry]
  let ls ← g.loops
  .ok (ms ++ ls.keys.map .bold)

end Graph

/-! ## DOT text -/

namespace Dot

def isDigit (c : Char) : Bool := '0' ≤ c && c ≤ '9'

def isWordStart (c : Char) : Bool := ('a' ≤ c && c ≤ 'z') || ('A' ≤ c && c ≤ 'Z') || c = '_'

def isWord : List Char → Bool
  | c :: cs => isWordStart c && cs.all fun c => isWordStart c || isDigit c
  | [] => false

/-- Digits with a point in front, behind or between. -/
def isUnsigned (cs : List Char) : Bool :=
  match cs.dropWhile isDigit with
  | [] => !cs.isEmpty
  | '.' :: ds => ds.all isDigit && (!ds.isEmpty || !(cs.takeWhile isDigit).isEmpty)
  | _ => false

def isNumber : List Char → Bool
  | '-' :: cs => isUnsigned cs
  | cs => isUnsigned cs

def keywords : List String := ["node", "edge", "graph", "digraph", "subgraph", "strict"]

/-- Text between angle brackets. -/
def isMarkup : List Char → Bool
  | '<' :: cs => cs.getLast? == some '>'
  | _ => false

/-- A line break at the end does not count. -/
def withoutBreak (cs : List Char) : List Char := if cs.getLast? = some '\n' then cs.dropLast else cs

def isBare (s : String) : Bool :=
  let cs := withoutBreak s.toList
  isMarkup cs || ((isWord cs || isNumber cs) && !keywords.contains s.toLower)

/-- A double quote gets a backslash unless it has one; `odd` says whether an odd number of
backslashes stands in front. -/
def escapeQuotes (odd : Bool) : List Char → List Char
  | [] => []
  | '"' :: cs => if odd then '"' :: escapeQuotes false cs else '\\' :: '"' :: escapeQuotes false cs
  | '\\' :: cs => '\\' :: escapeQuotes (!odd) cs
  | c :: cs => c :: escapeQuotes false cs

/-- A value as it stands in DOT text. -/
def value (s : String) : String :=
  if isBare s then s else "\"" ++ String.ofList (escapeQuotes false s.toList) ++ "\""

end Dot

def Mark.text : Mark → String
  | node i l => "\t" ++ toString i ++ " [label=" ++ Dot.value l ++ "]\n"
  | edge i j l => "\t" ++ toString i ++ " -> " ++ toString j ++ " [label=" ++ Dot.value l ++ "]\n"
  | bold i => "\t" ++ toString i ++ " [style=bold]\n"

/-- The drawing under a name; an empty name is left out. -/
def Graph.dot (g : Graph) (name : String) : Except Fault String := do
  let ms ← g.drawing
  let head := if name.isEmpty then "" else Dot.value name ++ " "
  .ok ("digraph " ++ head ++ "\x7b\n\tnode [shape=box]\n" ++ String.join (ms.map Mark.text) ++ "\x7d\n")

end ContractVerifier.Flow
