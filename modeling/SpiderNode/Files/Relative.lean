import SpiderNode.Files.Resolved

/-!
# The way from one path to another

`relative` of `lib/path.js`, for POSIX. It splits both resolved paths and counts the parts they
share; the others become steps up and steps down. `resolve_relative` says that they lead there.
-/

namespace SpiderNode.Files

open Trees

/-- `trim(arr)`: without the empty parts at both ends. The second argument of its `slice` is an
index in `arr`, but computed as a length. -/
def trim (arr : List JSString) : List JSString :=
  let start := arr.findIdx (· ≠ [])
  let stop := arr.length - arr.reverse.findIdx (· ≠ [])
  if stop ≤ start then [] else (arr.take (stop - start)).drop start

/-- How many parts are the same, up to the first that differ. -/
def samePartsLength (fromParts toParts : List JSString) : ℕ := common fromParts toParts

/-- `outputParts` -/
def outputParts (fromParts toParts : List JSString) (samePartsLength : ℕ) : List JSString :=
  List.replicate (fromParts.length - samePartsLength) (js "..") ++ toParts.drop samePartsLength

namespace Posix

/-- `path.relative` -/
def relative (cwd fromPath toPath : JSString) : JSString :=
  let fromParts := trim (((resolve cwd [fromPath]).drop 1).splitOn slash)
  let toParts := trim (((resolve cwd [toPath]).drop 1).splitOn slash)
  Files.join (outputParts fromParts toParts (samePartsLength fromParts toParts))

end Posix

variable {parts : List JSString}

theorem findIdx_of_ne_nil {l : List JSString} (h : ∀ q ∈ l, q ≠ []) :
    l.findIdx (· ≠ []) = 0 := by
  rcases l with _ | ⟨part, l⟩
  · rfl
  · rw [List.findIdx_cons]
    simp [h part List.mem_cons_self]

theorem findIdx_replicate_append {l : List JSString} (h : ∀ q ∈ l, q ≠ []) (n : ℕ) :
    (List.replicate n [] ++ l).findIdx (· ≠ []) = n := by
  induction n with
  | zero => exact findIdx_of_ne_nil h
  | succ n ih =>
    rw [List.replicate_succ, List.cons_append, List.findIdx_cons, ih]
    rfl

/-- As many parts as there are empty ones in front of them are cut off behind. -/
theorem trim_append (h : ∀ q ∈ parts, q ≠ []) (hne : parts ≠ []) (m n : ℕ) :
    trim (List.replicate m [] ++ parts ++ List.replicate n []) =
      parts.take (parts.length - m) := by
  have hlength := List.length_pos_iff.mpr hne
  have hstart : (List.replicate m [] ++ parts ++ List.replicate n []).findIdx (· ≠ []) = m := by
    have hlt : (List.replicate m [] ++ parts).findIdx (· ≠ []) <
        (List.replicate m [] ++ parts).length := by
      rw [findIdx_replicate_append h, List.length_append, List.length_replicate]
      omega
    rw [List.findIdx_append, if_pos hlt, findIdx_replicate_append h]
  have hstop : (List.replicate m [] ++ parts ++ List.replicate n []).reverse.findIdx (· ≠ []) =
      n := by
    have hlt : (List.replicate n [] ++ parts.reverse).findIdx (· ≠ []) <
        (List.replicate n [] ++ parts.reverse).length := by
      rw [findIdx_replicate_append fun q hq ↦ h q (List.mem_reverse.mp hq), List.length_append,
        List.length_replicate, List.length_reverse]
      omega
    rw [List.reverse_append, List.reverse_append, List.reverse_replicate, List.reverse_replicate,
      ← List.append_assoc, List.findIdx_append, if_pos hlt,
      findIdx_replicate_append fun q hq ↦ h q (List.mem_reverse.mp hq)]
  have harr : (List.replicate m [] ++ parts ++ List.replicate n []).length - n - m =
      parts.length := by
    simp only [List.length_append, List.length_replicate]
    omega
  rw [trim, hstart, hstop, if_neg (by omega), harr, List.drop_take, List.append_assoc,
    List.drop_left' (List.length_replicate ..), List.take_append_of_le_length (Nat.sub_le ..)]

theorem trim_of_ne_nil (h : ∀ q ∈ parts, q ≠ []) : trim parts = parts := by
  rcases eq_or_ne parts [] with rfl | hne
  · rfl
  · simpa using trim_append h hne 0 0

/-- The parts of a resolved path. -/
theorem Directory.trim_splitOn (d : Directory) :
    trim ((d.path.drop 1).splitOn slash) = d.parts := by
  rw [path, List.drop_one, List.tail_cons]
  rcases eq_or_ne d.parts [] with hnil | hne
  · rw [hnil]
    rfl
  · rw [join, List.splitOn_intercalate slash (fun q hq ↦ (d.named q hq).2.1) hne,
      trim_of_ne_nil fun q hq ↦ (d.named q hq).1]

/-- **`relative` leads from one path to the other.** -/
theorem resolve_relative {cwd : JSString} (h : isAbsolute cwd = true) (fromPath toPath : JSString) :
    resolve cwd [fromPath, Posix.relative cwd fromPath toPath] = resolve cwd [toPath] := by
  set d := follow cwd [fromPath] with hd
  set e := follow cwd [toPath] with he
  have hnamed : ∀ q ∈ (between d.parts e.parts).downs, IsName q := fun q hq ↦
    e.named q (List.mem_of_mem_drop hq)
  have hrelative : Posix.relative cwd fromPath toPath = join (route (between d.parts e.parts)) := by
    rw [Posix.relative, resolve_eq h, resolve_eq h, ← hd, ← he, d.trim_splitOn, e.trim_splitOn]
    rfl
  have hgoto : d.goto (Posix.relative cwd fromPath toPath) = e := by
    ext1
    rw [hrelative, Directory.parts_goto d (isAbsolute_join fun q hq ↦ mem_route hnamed hq),
      walk_route hnamed, act_between]
  rw [resolve_eq h, resolve_eq h,
    show [fromPath, Posix.relative cwd fromPath toPath] =
      [fromPath] ++ [Posix.relative cwd fromPath toPath] from rfl, follow_concat, ← hd, hgoto]

/-- From a relative path to a directory beside it. -/
theorem resolve_relative_beside :
    resolve (js "/home") [js "a/b/", Posix.relative (js "/home") (js "a/b/") (js "/home//a/../c")] =
      resolve (js "/home") [js "/home//a/../c"] :=
  resolve_relative (by decide) (js "a/b/") (js "/home//a/../c")

end SpiderNode.Files
