import Mathlib.Data.List.Basic
import Mathlib.Data.List.Induction
import Mathlib.Data.List.Infix
import Mathlib.Logic.Relation

/-!
# Paths of names

A spelling of a path is a list of moves from the root: enter a name, stay, go up; going up from the root
stays there. Two spellings are respellings of each other exactly if they lead to the same place
(`respelled_iff`).

Written with a separator after every name, the prefixes of paths are the prefixes of the texts
(`written_prefix_iff`).
-/

namespace Taomni

open List

variable {α : Type}

/-! ## Moves -/

inductive Move (α : Type) where
  | enter (name : α)
  | stay
  | up
deriving DecidableEq

def Move.apply (path : List α) : Move α → List α
  | enter name => path ++ [name]
  | stay => path
  | up => path.dropLast

/-- Where the moves lead. -/
def walk (path : List α) (moves : List (Move α)) : List α := moves.foldl Move.apply path

theorem walk_cons (path : List α) (move : Move α) (moves : List (Move α)) :
    walk path (move :: moves) = walk (move.apply path) moves := rfl

theorem walk_append (path : List α) (moves more : List (Move α)) :
    walk path (moves ++ more) = walk (walk path moves) more := foldl_append

theorem walk_enter (path names : List α) : walk path (names.map .enter) = path ++ names := by
  induction names generalizing path with
  | nil => rw [append_nil]; rfl
  | cons name names ih => rw [map_cons, walk_cons, ih, Move.apply, append_assoc]; rfl

/-- A walk has no names of its own. -/
theorem mem_walk {path : List α} {moves : List (Move α)} {name : α} (h : name ∈ walk path moves) :
    name ∈ path ∨ .enter name ∈ moves := by
  induction moves generalizing path with
  | nil => exact .inl h
  | cons move moves ih =>
    rcases ih h with h | h
    · cases move with
      | enter other =>
        rcases mem_append.mp h with h | h
        · exact .inl h
        · cases mem_singleton.mp h
          exact .inr mem_cons_self
      | stay => exact .inl h
      | up => exact .inl (mem_of_mem_dropLast h)
    · exact .inr (mem_cons_of_mem _ h)

/-! ## Respellings -/

/-- One change of a spelling: a move that stays, a name that is left at once, a move up from the root. -/
inductive RespellStep : List (Move α) → List (Move α) → Prop where
  | stay (pre post : List (Move α)) : RespellStep (pre ++ post) (pre ++ .stay :: post)
  | detour (pre : List (Move α)) (name : α) (post : List (Move α)) :
      RespellStep (pre ++ post) (pre ++ .enter name :: .up :: post)
  | root (post : List (Move α)) : RespellStep post (.up :: post)

def Respelled : List (Move α) → List (Move α) → Prop := Relation.EqvGen RespellStep

theorem walk_respellStep {moves more : List (Move α)} (h : RespellStep moves more) :
    walk [] moves = walk [] more := by
  cases h with
  | stay pre post => rw [walk_append, walk_append, walk_cons]; rfl
  | detour pre name post =>
    rw [walk_append, walk_append, walk_cons, walk_cons, Move.apply, Move.apply,
      dropLast_concat]
  | root post => rfl

theorem Respelled.append {moves more : List (Move α)} (h : Respelled moves more)
    (rest : List (Move α)) : Respelled (moves ++ rest) (more ++ rest) := by
  induction h with
  | rel moves more h =>
    refine .rel _ _ ?_
    cases h with
    | stay pre post =>
      rw [append_assoc, append_assoc]
      exact .stay pre (post ++ rest)
    | detour pre name post =>
      rw [append_assoc, append_assoc]
      exact .detour pre name (post ++ rest)
    | root => exact .root (moves ++ rest)
  | refl moves => exact .refl _
  | symm moves more _ ih => exact .symm _ _ ih
  | trans moves mid more _ _ ih ih' => exact .trans _ _ _ ih ih'

/-- Every spelling respells the names it leads to. -/
theorem respelled_walk (moves : List (Move α)) : Respelled moves ((walk [] moves).map .enter) := by
  induction moves using List.reverseRecOn with
  | nil => exact .refl _
  | append_singleton moves move ih =>
    refine .trans _ _ _ (ih.append [move]) ?_
    rw [walk_append]
    generalize walk [] moves = path
    cases move with
    | enter name =>
      change Respelled _ ((path ++ [name]).map .enter)
      rw [map_append]
      exact .refl _
    | stay =>
      have h := RespellStep.stay (path.map Move.enter) []
      rw [append_nil] at h
      exact .symm _ _ (.rel _ _ h)
    | up =>
      rcases eq_nil_or_concat' path with rfl | ⟨names, name, rfl⟩
      · exact .symm _ _ (.rel _ _ (.root []))
      · have h := RespellStep.detour (names.map Move.enter) name []
        rw [append_nil] at h
        change Respelled _ ((names ++ [name]).dropLast.map .enter)
        rw [dropLast_concat, map_append, append_assoc]
        exact .symm _ _ (.rel _ _ h)

theorem respelled_iff {moves more : List (Move α)} :
    Respelled moves more ↔ walk [] moves = walk [] more := by
  constructor
  · intro h
    induction h with
    | rel moves more h => exact walk_respellStep h
    | refl moves => rfl
    | symm moves more _ ih => exact ih.symm
    | trans moves mid more _ _ ih ih' => exact ih.trans ih'
  · intro h
    have hmore := respelled_walk more
    rw [← h] at hmore
    exact .trans _ _ _ (respelled_walk moves) (.symm _ _ hmore)

/-! ## Walks that never go up from the root -/

/-- From a place at the given depth, no move goes up from the root. -/
def Grounded : ℕ → List (Move α) → Prop
  | _, [] => True
  | depth, .enter _ :: moves => Grounded (depth + 1) moves
  | depth, .stay :: moves => Grounded depth moves
  | 0, .up :: _ => False
  | depth + 1, .up :: moves => Grounded depth moves

instance decidableGrounded : (depth : ℕ) → (moves : List (Move α)) →
    Decidable (Grounded depth moves)
  | _, [] => isTrue trivial
  | depth, .enter _ :: moves => decidableGrounded (depth + 1) moves
  | depth, .stay :: moves => decidableGrounded depth moves
  | 0, .up :: _ => isFalse id
  | depth + 1, .up :: moves => decidableGrounded depth moves

theorem grounded_enter (depth : ℕ) (names : List α) : Grounded depth (names.map .enter) := by
  induction names generalizing depth with
  | nil => trivial
  | cons name names ih => exact ih (depth + 1)

/-- A name put below the root stays there if no move goes up from the root, and else is lost. -/
theorem walk_below (root : α) (path : List α) (moves : List (Move α)) :
    (Grounded path.length moves → walk (root :: path) moves = root :: walk path moves) ∧
      (¬ Grounded path.length moves → walk (root :: path) moves = walk path moves) := by
  induction moves generalizing path with
  | nil => exact ⟨fun _ => rfl, fun h => absurd trivial h⟩
  | cons move moves ih =>
    cases move with
    | enter name =>
      have h := ih (path ++ [name])
      rw [length_append] at h
      exact h
    | stay => exact ih path
    | up =>
      cases path with
      | nil => exact ⟨False.elim, fun _ => rfl⟩
      | cons name path =>
        have h := ih (name :: path).dropLast
        rw [length_dropLast] at h
        exact h

/-! ## Written paths -/

/-- The names, each with a separator after it. -/
def written (sep : α) (names : List (List α)) : List α := names.flatMap (· ++ [sep])

theorem written_cons (sep : α) (name : List α) (names : List (List α)) :
    written sep (name :: names) = name ++ sep :: written sep names := by
  rw [written, flatMap_cons, append_assoc]
  rfl

/-- Separators between the names and one at the end. -/
theorem written_eq {sep : α} {names : List (List α)} (h : names ≠ []) :
    written sep names = [sep].intercalate names ++ [sep] := by
  induction names with
  | nil => exact absurd rfl h
  | cons name names ih =>
    rw [written_cons]
    cases names with
    | nil => rw [intercalate_singleton]; rfl
    | cons next names =>
      rw [ih (cons_ne_nil _ _), intercalate_cons_cons, append_assoc,
        append_assoc]
      rfl

/-- Up to the first separator. -/
theorem prefix_of_append_sep {sep : α} {name other rest more : List α} (hname : sep ∉ name)
    (hother : sep ∉ other) (h : name ++ sep :: rest <+: other ++ sep :: more) :
    name = other ∧ rest <+: more := by
  induction name generalizing other with
  | nil =>
    cases other with
    | nil => exact ⟨rfl, (cons_prefix_cons.mp h).2⟩
    | cons c other =>
      cases (cons_prefix_cons.mp h).1
      exact absurd mem_cons_self hother
  | cons c name ih =>
    cases other with
    | nil =>
      cases (cons_prefix_cons.mp h).1
      exact absurd mem_cons_self hname
    | cons d other =>
      obtain ⟨rfl, htail⟩ := cons_prefix_cons.mp h
      obtain ⟨rfl, hrest⟩ := ih (fun hc => hname (mem_cons_of_mem _ hc))
        (fun hc => hother (mem_cons_of_mem _ hc)) htail
      exact ⟨rfl, hrest⟩

theorem written_prefix_iff {sep : α} {names others : List (List α)}
    (hnames : ∀ name ∈ names, sep ∉ name) (hothers : ∀ name ∈ others, sep ∉ name) :
    written sep names <+: written sep others ↔ names <+: others := by
  induction names generalizing others with
  | nil => exact ⟨fun _ => nil_prefix, fun _ => nil_prefix⟩
  | cons name names ih =>
    obtain ⟨hname, hnames⟩ := forall_mem_cons.mp hnames
    cases others with
    | nil =>
      rw [written_cons]
      constructor
      · intro h
        exact absurd (prefix_nil.mp h) (append_ne_nil_of_right_ne_nil _
          (cons_ne_nil _ _))
      · intro h
        exact absurd (prefix_nil.mp h) (cons_ne_nil _ _)
    | cons other others =>
      obtain ⟨hother, htail⟩ := forall_mem_cons.mp hothers
      rw [written_cons, written_cons, cons_prefix_cons]
      constructor
      · intro h
        obtain ⟨rfl, hrest⟩ := prefix_of_append_sep hname hother h
        exact ⟨rfl, (ih hnames htail).mp hrest⟩
      · rintro ⟨rfl, h⟩
        obtain ⟨rest, hrest⟩ := (ih hnames htail).mpr h
        exact ⟨rest, by rw [← hrest, append_assoc, cons_append]⟩

end Taomni

/-!
# Paths as texts

`Path::components` of Unix: pieces between slashes, without empty ones and without dots but a first one.
-/

namespace Taomni

open List

inductive PathPart where
  | rootDir
  | curDir
  | parentDir
  | normal (name : List Char)
deriving DecidableEq

namespace PathPart

/-- A piece between slashes that is not at the start. -/
def ofPiece (piece : List Char) : Option PathPart :=
  if piece.isEmpty || piece = ['.'] then none
  else if piece = ['.', '.'] then some .parentDir
  else some (.normal piece)

/-- `Path::components`. -/
def components (text : List Char) : List PathPart :=
  let pieces := text.splitOn '/'
  let rest := pieces.filterMap ofPiece
  if text.head? = some '/' then .rootDir :: rest
  else if pieces.head? = some ['.'] then .curDir :: rest
  else rest

/-- The moves of a link with this target. -/
def moves (text : List Char) : List (Move (List Char)) :=
  (text.splitOn '/').map fun piece =>
    if piece.isEmpty || piece = ['.'] then .stay else if piece = ['.', '.'] then .up else .enter piece

end PathPart

/-!
# Trees of named entries

A tree gives every path its entry, if it has one. Subtrees can be moved and parts of them removed;
what is apart from them stays.
-/

variable {ν ε : Type}

abbrev PathTree (ν ε : Type) := List ν → Option ε

/-- Neither path is below the other one. -/
structure PathsApart (a b : List ν) : Prop where
  left : ¬a <+: b
  right : ¬b <+: a

namespace PathsApart

variable {a b : List ν}

theorem symm (h : PathsApart a b) : PathsApart b a := ⟨h.right, h.left⟩

theorem not_below (h : PathsApart a b) (rest : List ν) : ¬a <+: b ++ rest := by
  intro hbelow
  rcases prefix_or_prefix_of_prefix hbelow (prefix_append b rest) with hab | hba
  · exact h.left hab
  · exact h.right hba

theorem append (h : PathsApart a b) (rest rest' : List ν) : PathsApart (a ++ rest) (b ++ rest') :=
  ⟨fun hbelow => h.not_below rest' ((prefix_append a rest).trans hbelow),
    fun hbelow => h.symm.not_below rest ((prefix_append b rest').trans hbelow)⟩

/-- Two names in one directory. -/
theorem of_names (dir : List ν) {name other : ν} (h : name ≠ other) :
    PathsApart (dir ++ [name]) (dir ++ [other]) := by
  have hnot {x y : ν} (hne : x ≠ y) : ¬dir ++ [x] <+: dir ++ [y] := by
    rw [prefix_append_right_inj, cons_prefix_cons]
    exact fun hsame => hne hsame.1
  exact ⟨hnot h, hnot h.symm⟩

end PathsApart

namespace PathTree

/-- Everything that exists is in directories. -/
def Closed (T : PathTree ν ε) (dir : ε) : Prop :=
  ∀ path name, (T (path ++ [name])).isSome = true → T path = some dir

/-- Nothing is below what does not exist. -/
theorem Closed.none_below {T : PathTree ν ε} {dir : ε} (h : T.Closed dir) {p : List ν}
    (hp : T p = none) (rest : List ν) : T (p ++ rest) = none := by
  induction rest using List.reverseRecOn with
  | nil => rwa [append_nil]
  | append_singleton rest name ih =>
    rw [← append_assoc, ← Option.not_isSome_iff_eq_none]
    intro hsome
    exact absurd (ih.symm.trans (h _ name hsome)) nofun

variable [DecidableEq ν] (T : PathTree ν ε)

/-- The tree with another entry. -/
def set (path : List ν) (entry : Option ε) : PathTree ν ε :=
  fun p => if p = path then entry else T p

/-- The tree with the subtree at `a` moved to `b`. -/
def move (a b : List ν) : PathTree ν ε := fun p =>
  if b.isPrefixOf p then T (a ++ p.drop b.length)
  else if a.isPrefixOf p then none
  else T p

/-- The tree without what is gone of the subtree at `a`. -/
def prune (a : List ν) (gone : List ν → Bool) : PathTree ν ε := fun p =>
  if a.isPrefixOf p && gone p then none else T p

variable {T} {a b p : List ν}

@[simp] theorem set_eq (path : List ν) (entry : Option ε) : T.set path entry path = entry :=
  if_pos rfl

theorem set_ne {path : List ν} (entry : Option ε) (h : p ≠ path) : T.set path entry p = T p :=
  if_neg h

theorem move_target (rest : List ν) : T.move a b (b ++ rest) = T (a ++ rest) := by
  unfold move
  rw [if_pos (List.isPrefixOf_iff_prefix.mpr (prefix_append b rest)), drop_left]

theorem move_source (rest : List ν) (h : ¬b <+: a ++ rest) : T.move a b (a ++ rest) = none := by
  unfold move
  rw [if_neg (mt isPrefixOf_iff_prefix.mp h),
    if_pos (List.isPrefixOf_iff_prefix.mpr (prefix_append a rest))]

theorem move_other (ha : ¬a <+: p) (hb : ¬b <+: p) : T.move a b p = T p := by
  unfold move
  rw [if_neg (mt isPrefixOf_iff_prefix.mp hb), if_neg (mt isPrefixOf_iff_prefix.mp ha)]

theorem prune_other {gone : List ν → Bool} (h : ¬a <+: p) : T.prune a gone p = T p := by
  unfold prune
  rw [if_neg]
  rw [Bool.and_eq_true, isPrefixOf_iff_prefix]
  exact fun hp => h hp.1

theorem prune_below (gone : List ν → Bool) (rest : List ν) :
    T.prune a gone (a ++ rest) = if gone (a ++ rest) then none else T (a ++ rest) := by
  unfold prune
  rw [List.isPrefixOf_iff_prefix.mpr (prefix_append a rest), Bool.true_and]

end PathTree

end Taomni
