import Mathlib

/-! # Paths

A path is the list of the pieces between its separators. A piece is empty where
a separator follows another one, begins the text or ends it, so path and text
determine each other. The functions are those of a standard library that
normalizes repeated separators and dots, and nothing else, when it looks at the
components. -/
namespace UsbScope.Lib

inductive Segment (N : Type) where
  | empty
  | current
  | parent
  | normal (name : N)
deriving DecidableEq

inductive Component (N : Type) where
  | rootDir
  | curDir
  | parentDir
  | normal (name : N)
deriving DecidableEq

abbrev Path (N : Type) := List (Segment N)

variable {N : Type}

def Segment.component : Segment N → Option (Component N)
  | .parent => some .parentDir
  | .normal name => some (.normal name)
  | _ => none

def Component.segment : Component N → Segment N
  | .rootDir => .empty
  | .curDir => .current
  | .parentDir => .parent
  | .normal name => .normal name

/-- A piece that leads away from the directory it is looked up in. -/
def Segment.moves : Segment N → Bool
  | .empty => false
  | .current => false
  | _ => true

namespace Path

def isAbsolute : Path N → Bool
  | .empty :: _ :: _ => true
  | _ => false

/-- Whether the text is empty. -/
def isEmptyText : Path N → Bool
  | [] => true
  | [.empty] => true
  | _ => false

/-- What the text begins with: a leading dot of a relative path is kept. -/
def leading : Path N → List (Component N)
  | .empty :: _ :: _ => [.rootDir]
  | .current :: _ => [.curDir]
  | _ => []

def components (p : Path N) : List (Component N) := p.leading ++ p.filterMap Segment.component

def fileName (p : Path N) : Option N :=
  match p.components.getLast? with
  | some (.normal name) => some name
  | _ => none

/-- The path of a list of components; of none the empty text. -/
def ofComponents : List (Component N) → Path N
  | [] => [.empty]
  | [.rootDir] => [.empty, .empty]
  | cs => cs.map Component.segment

/-- The path without its final component. -/
def parent (p : Path N) : Option (Path N) :=
  match p.components.getLast? with
  | none => none
  | some .rootDir => none
  | some _ => some (ofComponents p.components.dropLast)

/-- An absolute path replaces the one it is appended to. -/
def join (base p : Path N) : Path N :=
  if p.isAbsolute then p
  else
    match base.getLast? with
    | some .empty => base.dropLast ++ p
    | _ => base ++ p

end Path

/-! ## Texts -/

def Segment.text : Segment String → String
  | .empty => ""
  | .current => "."
  | .parent => ".."
  | .normal name => name

def Segment.ofChars : List Char → Segment String
  | [] => .empty
  | ['.'] => .current
  | ['.', '.'] => .parent
  | cs => .normal (String.ofList cs)

def Path.ofText (text : String) : Path String := (text.toList.splitOn '/').map Segment.ofChars

def Path.display (p : Path String) : String := "/".intercalate (p.map Segment.text)

/-! ## Paths of locations

A location is the names from a place up to the root, the last one first. -/

/-- The pieces that lead from the root to a location. -/
def Path.below (loc : List N) : Path N := loc.reverse.map Segment.normal

/-- The canonical path of a location. -/
def Path.real (loc : List N) : Path N :=
  ofComponents (.rootDir :: loc.reverse.map Component.normal)

namespace Path

@[simp] theorem below_cons (name : N) (loc : List N) :
    below (name :: loc) = below loc ++ [.normal name] := by simp [below]

theorem filterMap_below (loc : List N) :
    (below loc).filterMap Segment.component = loc.reverse.map Component.normal := by
  unfold below
  rw [List.filterMap_map]
  show loc.reverse.filterMap (some ∘ Component.normal) = _
  rw [List.filterMap_eq_map]

theorem real_cons (name : N) (loc : List N) :
    real (name :: loc) = .empty :: below (name :: loc) := by
  unfold real
  cases h : (name :: loc).reverse with
  | nil => simp at h
  | cons first rest =>
    have hbelow : below (name :: loc) = (first :: rest).map Segment.normal := by rw [below, h]
    rw [hbelow]
    simp [ofComponents, Component.segment, Function.comp_def]

theorem components_real (loc : List N) :
    (real loc).components = .rootDir :: loc.reverse.map Component.normal := by
  cases loc with
  | nil => rfl
  | cons name loc =>
    rw [real_cons, components, List.filterMap_cons_none rfl, filterMap_below]
    cases h : below (name :: loc) with
    | nil => simp at h
    | cons => rfl

/-- A relative path is appended behind the root's separator, or behind a new one. -/
theorem join_real {p : Path N} (loc : List N) (h : p.isAbsolute = false) :
    (real loc).join p = .empty :: (below loc ++ p) := by
  unfold join
  rw [if_neg (by simp [h])]
  cases loc with
  | nil => rfl
  | cons name loc => simp [real_cons, List.getLast?_cons]

theorem join_real_normal (loc : List N) (name : N) :
    (real loc).join [.normal name] = real (name :: loc) := by
  rw [join_real loc rfl, real_cons, below_cons]

theorem components_real_cons (name : N) (loc : List N) :
    (real (name :: loc)).components = (real loc).components ++ [.normal name] := by
  rw [components_real, components_real, List.reverse_cons, List.map_append, List.map_singleton,
    List.cons_append]

theorem parent_real (name : N) (loc : List N) : (real (name :: loc)).parent = some (real loc) := by
  unfold parent
  rw [components_real_cons, List.getLast?_concat, List.dropLast_concat, components_real]
  rfl

/-! ## The directory of a name -/

theorem leading_cases (p : Path N) : p.leading = [.rootDir] ∧ p.isAbsolute = true ∨
    (p.leading = [.curDir] ∨ p.leading = []) ∧ p.isAbsolute = false := by
  unfold leading isAbsolute
  split
  · exact .inl ⟨rfl, rfl⟩
  · exact .inr ⟨.inl rfl, rfl⟩
  · rename_i habs _
    refine .inr ⟨.inr rfl, ?_⟩
    split
    · exact absurd rfl (habs _ _)
    · rfl

theorem components_concat (a : Path N) (name : N) : components (a ++ [Segment.normal name]) =
    (leading (a ++ [Segment.normal name]) ++ a.filterMap Segment.component) ++
      [Component.normal name] := by
  unfold components
  rw [List.filterMap_append, ← List.append_assoc]
  rfl

theorem fileName_concat (a : Path N) (name : N) :
    fileName (a ++ [Segment.normal name]) = some name := by
  unfold fileName
  rw [components_concat, List.getLast?_concat]

theorem moves_ofComponents (cs : List (Component N)) :
    (ofComponents cs).filter Segment.moves = (cs.map Component.segment).filter Segment.moves := by
  unfold ofComponents
  split
  · rfl
  · rfl
  · rfl

theorem moves_components (p : Path N) :
    ((p.filterMap Segment.component).map Component.segment).filter Segment.moves =
      p.filter Segment.moves := by
  induction p with
  | nil => rfl
  | cons s rest ih =>
    cases s with
    | empty => exact ih
    | current => exact ih
    | parent => exact congrArg (Segment.parent :: ·) ih
    | normal name => exact congrArg (Segment.normal name :: ·) ih

theorem rootDir_notMem_components (p : Path N) :
    Component.rootDir ∉ p.filterMap Segment.component := by
  intro h
  obtain ⟨s, _, hs⟩ := List.mem_filterMap.mp h
  cases s <;> cases hs

/-- Without the root among them, components are those of a relative path. -/
theorem relative_ofComponents {cs : List (Component N)} (h : .rootDir ∉ cs) :
    (ofComponents cs).isAbsolute = false := by
  unfold ofComponents
  split
  · rfl
  · exact absurd List.mem_cons_self h
  · cases cs with
    | nil => rfl
    | cons c rest =>
      cases c with
      | rootDir => exact absurd List.mem_cons_self h
      | curDir => rfl
      | parentDir => rfl
      | normal name => rfl

theorem absolute_ofComponents (cs : List (Component N)) :
    (ofComponents (.rootDir :: cs)).isAbsolute = true := by
  cases cs <;> rfl

/-- The parent of a path that ends with a name leads to the directory that the name is
looked up in. -/
theorem parent_concat (a : Path N) (name : N) :
    ∃ q, parent (a ++ [Segment.normal name]) = some q ∧
      q.isAbsolute = isAbsolute (a ++ [Segment.normal name]) ∧
      q.filter Segment.moves = a.filter Segment.moves := by
  have hparent : parent (a ++ [Segment.normal name]) = some (ofComponents
      (leading (a ++ [Segment.normal name]) ++ a.filterMap Segment.component)) := by
    unfold parent
    rw [components_concat, List.getLast?_concat, List.dropLast_concat]
  refine ⟨_, hparent, ?_, ?_⟩
  · rcases leading_cases (a ++ [Segment.normal name]) with ⟨hlead, habs⟩ | ⟨hlead, habs⟩
    · rw [hlead, habs]
      exact absolute_ofComponents _
    · rw [habs]
      refine relative_ofComponents fun h => ?_
      rcases List.mem_append.mp h with h | h
      · rcases hlead with hlead | hlead <;> rw [hlead] at h <;> simp at h
      · exact rootDir_notMem_components a h
  · rw [moves_ofComponents, List.map_append, List.filter_append, moves_components]
    have hlead :
        ((leading (a ++ [Segment.normal name])).map Component.segment).filter Segment.moves = [] := by
      rcases leading_cases (a ++ [Segment.normal name]) with ⟨hlead, _⟩ | ⟨hlead | hlead, _⟩ <;>
        rw [hlead] <;> rfl
    rw [hlead, List.nil_append]

end Path
end UsbScope.Lib
