/-!
# Paths — the components of a relative path

`std::path::Path::components`: a leading slash is the root, repeated slashes and inner dots are normalised away, and a dot
that starts a relative path stays.
-/
namespace Syllog
namespace Paths

inductive Component where
  | rootDir
  | curDir
  | parentDir
  | normal (name : List Char)
deriving DecidableEq, Repr

def Component.isNormal : Component → Bool
  | .normal _ => true
  | _         => false

/-- What a segment behind the first adds. -/
def segment : List Char → Option Component
  | []         => none
  | ['.']      => none
  | ['.', '.'] => some .parentDir
  | name       => some (.normal name)

def components (path : String) : List Component :=
  match path.toList.splitOn '/' with
  | []            => []
  | first :: rest =>
    (if path.toList.head? = some '/' then [.rootDir]
      else if first = ['.'] then [.curDir]
      else (segment first).toList) ++ rest.filterMap segment

example : components "a/./b//c/" = [.normal ['a'], .normal ['b'], .normal ['c']] := by decide

example : components "./a" = [.curDir, .normal ['a']] ∧ components "/a" = [.rootDir, .normal ['a']] ∧
    components "a/../b" = [.normal ['a'], .parentDir, .normal ['b']] := by decide

end Paths
end Syllog
