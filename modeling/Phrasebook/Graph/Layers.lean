import Phrasebook.Graph.Validity

/-!
Definitions in the order of their dependence.

`visit` walks along the references, depth first.  It keeps the path that led to the
definition it is at and the definitions it has finished, each of which has all that it
refers to behind it in the list.  A reference back to the path closes a circle, and the
circle is the answer; if none does, the finished definitions are the layers: a definition
refers only to later ones, so what is defined along the list, from its end, never asks for
itself.
-/

namespace Phrasebook

namespace Definition

/-- The keys that the definition refers to, ascending and without repeats. -/
def targets (d : Definition) : List Key :=
  ((d.references.map (·.target)).mergeSort Key.le).eraseDups

/-- The circle that a reference to `key` closes, for a path that is kept last key first. -/
def circle (path : List Key) (key : Key) : List Key :=
  key :: (path.takeWhile (· ≠ key)).reverse ++ [key]

/-- A path that gets longer leaves fewer definitions outside. -/
theorem outside_lt {definitions : List Definition} {path : List Key} {key : Key}
    {d : Definition} (hd : find? definitions key = some d) (hp : key ∉ path) :
    (definitions.filter (·.key ∉ key :: path)).length <
      (definitions.filter (·.key ∉ path)).length := by
  have hmem : d ∈ definitions := List.mem_of_find?_eq_some hd
  have hkey : d.key = key := by simpa using List.find?_some hd
  have hsub : definitions.filter (·.key ∉ key :: path) =
      (definitions.filter (·.key ∉ path)).filter (·.key ≠ key) := by
    rw [List.filter_filter]
    congr 1
    funext e
    simp
  rw [hsub]
  refine List.length_filter_lt_length_iff_exists.2 ⟨d, ?_, by simp [hkey]⟩
  exact List.mem_filter.2 ⟨hmem, by simpa [hkey] using hp⟩

/-- Finishes the definition with a key and all that it refers to, or finds a circle. -/
def visit (definitions : List Definition) (path : List Key) (finished : List Definition)
    (key : Key) : Except (List Key) (List Definition) :=
  if finished.any (·.key == key) then .ok finished
  else if _ : key ∈ path then .error (circle path key)
  else
    match _ : find? definitions key with
    | none => .ok finished
    | some d => do
      let finished ← d.targets.foldlM (fun finished target =>
        visit definitions (key :: path) finished target) finished
      return d :: finished
  termination_by (definitions.filter (·.key ∉ path)).length
  decreasing_by exact outside_lt (by assumption) (by assumption)

/-- The definitions, each in front of all that it refers to, or a circle. -/
def layers (definitions : List Definition) : Except (List Key) (List Definition) :=
  definitions.foldlM (fun finished d => visit definitions [] finished d.key) []

end Definition

end Phrasebook
