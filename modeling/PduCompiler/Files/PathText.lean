/-!
Paths as text. A path is cleaned without looking at any file: doubled slashes and single dots
vanish, and two dots take back the part before them.
-/

namespace PduCompiler.Files

def splitSlashes : List Char → List (List Char)
  | [] => [[]]
  | '/' :: rest => [] :: splitSlashes rest
  | c :: rest =>
    match splitSlashes rest with
    | [] => [[c]]
    | part :: parts => (c :: part) :: parts

def isRooted (s : List Char) : Bool := s.head? = some '/'

def dot : List Char := ['.']

def dots : List Char := ['.', '.']

def pushPart (rooted : Bool) (above : List (List Char)) (part : List Char) : List (List Char) :=
  if part = [] || part = dot then above
  else if part = dots then
    match above with
    | [] => if rooted then [] else [dots]
    | top :: below => if top = dots then dots :: above else below
  else part :: above

def cleanParts (s : List Char) : List (List Char) :=
  ((splitSlashes s).foldl (pushPart (isRooted s)) []).reverse

def cleanChars (s : List Char) : List Char :=
  let parts := ['/'].intercalate (cleanParts s)
  if isRooted s then '/' :: parts else if parts = [] then dot else parts

/-- The shortest path that means the same. -/
def cleanPath (path : String) : String := String.ofList (cleanChars path.toList)

/-- Paths one after the other, cleaned. Empty ones do not count. -/
def joinPath (paths : List String) : String :=
  match paths.filter (· != "") with
  | [] => ""
  | given => cleanPath ("/".intercalate given)

/-- How `~` in front of a path is expanded: to the path that this gives, or why there is none. -/
abbrev Home := String → Except String String

/-- Expansion with the home directory of the user, or why that is not known. The one of another user
never is. -/
def Home.of (dir : Except String String) : Home := fun path =>
  match path.toList with
  | '~' :: rest =>
    if rest.head?.all fun c => c = '/' || c = '\\' then
      dir.map fun dir => joinPath [dir, String.ofList rest]
    else .error "cannot expand user-specific home dir"
  | _ => .ok path

end PduCompiler.Files
