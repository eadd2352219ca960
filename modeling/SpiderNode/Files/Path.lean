import SpiderNode.Text.Utf16

/-!
# Paths

The POSIX part of `lib/path.js`: `resolve`. A relative path is resolved from `cwd`, the working
directory.
-/

namespace SpiderNode.Files

def slash : UInt16 := 0x2F

/-- The parts of a path between slashes that are not empty. -/
def segments (p : JSString) : List JSString := (p.splitOn slash).filter (· ≠ [])

def join (parts : List JSString) : JSString := [slash].intercalate parts

/-- `normalizeArray`, from the end: the parts that stay, and how many `'..'` are left over. -/
def normalizeParts (parts : List JSString) : List JSString × ℕ :=
  parts.foldr (fun part (kept, up) ↦
    if part = js "." then (kept, up)
    else if part = js ".." then (kept, up + 1)
    else if 0 < up then (kept, up - 1)
    else (part :: kept, up)) ([], 0)

def normalizeArray (parts : List JSString) (allowAboveRoot : Bool) : List JSString :=
  let (kept, up) := normalizeParts parts
  if allowAboveRoot then List.replicate up (js "..") ++ kept else kept

def isAbsolute (p : JSString) : Bool := p.head? = some slash

/-- The loop of `resolve`, over the arguments from the last to the first. -/
def gather : List JSString → JSString → JSString × Bool
  | [], resolvedPath => (resolvedPath, false)
  | p :: ps, resolvedPath =>
    if p = [] then gather ps resolvedPath
    else if isAbsolute p then (p ++ slash :: resolvedPath, true)
    else gather ps (p ++ slash :: resolvedPath)

/-- `path.resolve` -/
def resolve (cwd : JSString) (paths : List JSString) : JSString :=
  let (resolvedPath, resolvedAbsolute) := gather (paths.reverse ++ [cwd]) []
  let path := join (normalizeArray (segments resolvedPath) (!resolvedAbsolute))
  if resolvedAbsolute then slash :: path else if path = [] then js "." else path

example : resolve (js "/home") [js "/a/b", js "../c//./d/"] = js "/a/c/d" := by decide

end SpiderNode.Files
