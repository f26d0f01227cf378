import ContractVerifier.Text.Quoted

/-!
# Text literals with few escapes

A text is put between the first of some delimiters that does not occur in it, so that only
characters that are not printable need a backslash.
-/

namespace ContractVerifier.Text

def lineQuotes : List String := ["'", "\""]

/-- Delimiters of literals that may run over several lines. -/
def blockQuotes : List String := ["\"\"\"", "'''"]

def allQuotes : List String := lineQuotes ++ blockQuotes

/-- Whether `p` occurs in `s`. -/
def occurs (p : List Char) : List Char → Bool
  | [] => p.isEmpty
  | c :: cs => p.isPrefixOf (c :: cs) || occurs p cs

def holds (s p : String) : Bool := occurs p.toList s.toList

/-- Line feeds and tabs stay as they are unless `strict`. -/
def softEscape (strict : Bool) (c : Char) : String :=
  if !strict && (c = '\n' || c = '\t') then String.singleton c
  else if c = '\\' then "\\\\"
  else if c = '\n' then "\\n"
  else if c = '\t' then "\\t"
  else if c = '\r' then "\\r"
  else if isPrintable c then String.singleton c
  else numericEscape c

/-- The first character of a delimiter. -/
def quoteChar (q : String) : Option Char := q.toList.head?

/-- Without the first and the last character. -/
def withoutEnds (s : String) : String := String.ofList (s.toList.drop 1).dropLast

/-- What stands between the delimiters, and the delimiters of `quotes` that can be used, best
first. -/
def literalBody (quotes : List String) (strict : Bool) (s : String) : String × List String :=
  let body := String.join (s.toList.map (softEscape strict))
  let possible := if body.toList.contains '\n' then quotes.filter blockQuotes.contains else quotes
  let possible := possible.filter fun q => !holds body q
  if possible.isEmpty then
    let whole := quoted s
    let q := String.ofList (whole.toList.take 1)
    (withoutEnds whole, [(quotes.find? fun d => holds d q).getD q])
  else
    match body.toList.getLast? with
    | none => (body, possible)
    | some last =>
      let clash (q : String) : Bool := quoteChar q == some last
      let possible := possible.filter (!clash ·) ++ possible.filter clash
      if possible.head?.any clash then
        (String.ofList (body.toList.dropLast ++ ['\\', last]), possible)
      else (body, possible)

/-- Between one of `quotes`, with line feeds and tabs as they are. -/
def plainLiteral (quotes : List String) (s : String) : String :=
  let (body, qs) := literalBody quotes false s
  let q := qs.head?.getD ""
  q ++ body ++ q

/-- Parts of one literal: bodies so far and the delimiters that fit all of them. -/
def joinBodies : List String → List (String × Bool) → Option (List String × List String)
  | quotes, [] => some ([], quotes)
  | quotes, (s, strict) :: rest =>
    let (body, qs) := literalBody quotes strict s
    if qs.any quotes.contains then (joinBodies qs rest).map fun (bs, q) => (body :: bs, q)
    else none

/-- One literal of several parts; in parts marked `true` line feeds and tabs are escaped.  If no
delimiter fits all parts, every part is escaped for single quotes. -/
def joinedLiteral (parts : List (String × Bool)) : String :=
  match joinBodies allQuotes parts with
  | some (bodies, qs) =>
    let q := qs.head?.getD ""
    q ++ String.join bodies ++ q
  | none =>
    let bodies := parts.map fun p => String.ofList ((quoted ("\"" ++ p.1)).toList.drop 2).dropLast
    "'''" ++ String.join bodies ++ "'''"

end ContractVerifier.Text
