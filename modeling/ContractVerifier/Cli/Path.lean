/-!
# Paths

Names of files, with a slash between the parts.
-/

namespace ContractVerifier.Cli.Path

/-- `b` seen from the directory `a`. -/
def join (a b : String) : String :=
  if b.toList.head? = some '/' then b
  else if a = "" || a.toList.getLast? = some '/' then a ++ b
  else a ++ "/" ++ b

/-- The part behind the last slash. -/
def baseChars (cs : List Char) : List Char := (cs.reverse.takeWhile (· ≠ '/')).reverse

/-- The directory of a file; slashes at its end are dropped, unless there is nothing else. -/
def directory (p : String) : String :=
  let head := p.toList.take (p.length - (baseChars p.toList).length)
  if head.all (· = '/') then String.ofList head
  else String.ofList (head.reverse.dropWhile (· = '/')).reverse

/-- Where the extension of a name without slashes starts; dots at the front do not count. -/
def extensionLength (cs : List Char) : Nat :=
  let behind := cs.reverse.takeWhile (· ≠ '.')
  let front := cs.take (cs.length - behind.length - 1)
  if behind.length < cs.length && front.any (· ≠ '.') then behind.length + 1 else 0

/-- The name of a file without directory and extension. -/
def stem (p : String) : String :=
  let cs := baseChars p.toList
  String.ofList (cs.take (cs.length - extensionLength cs))

/-- The extension of a file, with its dot. -/
def extension (p : String) : String :=
  let cs := baseChars p.toList
  String.ofList (cs.drop (cs.length - extensionLength cs))

end ContractVerifier.Cli.Path
