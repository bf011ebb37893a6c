import Mathlib.Order.Nat
import Taomni.Common.LinkedFiles

/-!
# Where paths lead

Following links never gets out of a subtree if none of its links leads out (`resolve_root`), and a path
without links leads to itself (`resolve_plain`).
-/

namespace Taomni

open List
open PathTree (move_other move_target set_eq set_ne)

variable {ν : Type}

open Files (names)

variable {moves : List (Move ν)}

variable {path : List ν}

namespace FileTree

variable {T : FileTree ν} {follow : Bool} {links : ℕ} {here loc : List ν}

/-! ## One move -/

@[simp] theorem resolve_nil : T.resolve follow links [] here = .ok here := by
  cases links <;> rfl

@[simp] theorem resolve_stay (rest : List (Move ν)) :
    T.resolve follow links (.stay :: rest) here = T.resolve follow links rest here := by
  cases links <;> rfl

@[simp] theorem resolve_up (rest : List (Move ν)) :
    T.resolve follow links (.up :: rest) here = T.resolve follow links rest here.dropLast := by
  cases links <;> rfl

theorem resolve_dir {name : ν} (h : T (here ++ [name]) = some .dir) (rest : List (Move ν)) :
    T.resolve follow links (.enter name :: rest) here =
      T.resolve follow links rest (here ++ [name]) := by
  cases links <;>
    · unfold resolve
      rw [resolveWith, h]

variable {rooted : Bool} {rest : List (Move ν)}

theorem resolve_link {name : ν} (h : T (here ++ [name]) = some (.link rooted moves))
    (hfollow : follow = true ∨ rest ≠ []) : T.resolve follow (links + 1) (.enter name :: rest) here =
      T.resolve follow links (moves ++ rest) (if rooted then [] else here) := by
  have hcond : ¬(rest.isEmpty && !follow) = true := by
    rw [Bool.and_eq_true, List.isEmpty_iff, Bool.not_eq_true', not_and, Bool.not_eq_false]
    exact fun hrest => hfollow.resolve_right (not_not_intro hrest)
  rw [resolve, resolveWith, h]
  exact if_neg hcond

/-- What entering a name can lead to. -/
theorem resolve_enter {name : ν} (h : T.resolve follow links (.enter name :: rest) here = .ok loc) :
    (T (here ++ [name]) = some .dir ∧ T.resolve follow links rest (here ++ [name]) = .ok loc) ∨
      (rest = [] ∧ loc = here ++ [name] ∧ T (here ++ [name]) ≠ some .dir ∧
        (follow = true → ∀ rooted moves, T (here ++ [name]) ≠ some (.link rooted moves))) ∨
      ∃ rooted moves n, T (here ++ [name]) = some (.link rooted moves) ∧ links = n + 1 ∧
        (follow = true ∨ rest ≠ []) ∧
        T.resolve follow n (moves ++ rest) (if rooted then [] else here) = .ok loc := by
  have hstep : ∃ again, T.resolveWith again follow (.enter name :: rest) here = .ok loc ∧
      (∀ moves start, again moves start = .ok loc →
        ∃ n, links = n + 1 ∧ T.resolve follow n moves start = .ok loc) ∧
      T.resolveWith again follow rest = T.resolve follow links rest := by
    cases links with
    | zero => exact ⟨_, h, nofun, rfl⟩
    | succ n => exact ⟨_, h, fun _ _ h => ⟨n, rfl, h⟩, rfl⟩
  obtain ⟨again, hwith, hagain, hrest⟩ := hstep
  have hlast (fault : Fault)
      (heq : (if rest.isEmpty then Except.ok (here ++ [name]) else .error fault) = .ok loc) :
      rest = [] ∧ loc = here ++ [name] := by
    cases rest with
    | nil => exact ⟨rfl, (Except.ok.inj heq).symm⟩
    | cons move rest => cases heq
  rw [resolveWith] at hwith
  cases hnode : T (here ++ [name]) with
  | none =>
    rw [hnode] at hwith
    exact .inr (.inl ⟨(hlast _ hwith).1, (hlast _ hwith).2, nofun, fun _ => nofun⟩)
  | some node =>
    rw [hnode] at hwith
    cases node with
    | dir =>
      refine .inl ⟨rfl, ?_⟩
      rw [← hrest]
      exact hwith
    | file id => exact .inr (.inl ⟨(hlast _ hwith).1, (hlast _ hwith).2, nofun, fun _ => nofun⟩)
    | link rooted moves =>
      dsimp only at hwith
      split at hwith
      · rename_i hcond
        rw [Bool.and_eq_true, List.isEmpty_iff, Bool.not_eq_true'] at hcond
        refine .inr (.inl ⟨hcond.1, (Except.ok.inj hwith).symm, nofun, fun hfollow => ?_⟩)
        rw [hcond.2] at hfollow
        cases hfollow
      · rename_i hcond
        obtain ⟨n, hlinks, hresolve⟩ := hagain _ _ hwith
        refine .inr (.inr ⟨rooted, moves, n, rfl, hlinks, ?_, hresolve⟩)
        rw [Bool.and_eq_true, List.isEmpty_iff, Bool.not_eq_true', not_and, Bool.not_eq_false] at hcond
        exact (em (rest = [])).imp hcond id

/-- Induction along the way to a place. -/
theorem resolve_induction {motive : ℕ → List (Move ν) → List ν → Prop}
    (done : ∀ links, motive links [] loc)
    (stay : ∀ links rest here, T.resolve follow links (.stay :: rest) here = .ok loc →
      motive links rest here → motive links (.stay :: rest) here)
    (up : ∀ links rest here, T.resolve follow links (.up :: rest) here = .ok loc →
      motive links rest here.dropLast → motive links (.up :: rest) here)
    (dir : ∀ links name rest here, T.resolve follow links (.enter name :: rest) here = .ok loc →
      T (here ++ [name]) = some .dir → motive links rest (here ++ [name]) →
      motive links (.enter name :: rest) here)
    (last : ∀ links name here, T.resolve follow links [.enter name] here = .ok loc →
      loc = here ++ [name] → T loc ≠ some .dir →
      (follow = true → ∀ rooted moves, T loc ≠ some (.link rooted moves)) →
      motive links [.enter name] here) (link : ∀ links name rest here rooted moves,
      T.resolve follow (links + 1) (.enter name :: rest) here = .ok loc →
      T (here ++ [name]) = some (.link rooted moves) →
      motive links (moves ++ rest) (if rooted then [] else here) →
      motive (links + 1) (.enter name :: rest) here) (h : T.resolve follow links moves here = .ok loc) :
    motive links moves here := by
  have hmoves (links : ℕ) (hlink : ∀ n, links = n + 1 → ∀ moves here,
      T.resolve follow n moves here = .ok loc → motive n moves here) (moves : List (Move ν))
      (here : List ν) (h : T.resolve follow links moves here = .ok loc) : motive links moves here := by
    induction moves generalizing here with
    | nil =>
      rw [resolve_nil] at h
      exact Except.ok.inj h ▸ done links
    | cons move moves ih =>
      cases move with
      | stay => exact stay _ _ _ h (ih here (resolve_stay moves ▸ h))
      | up => exact up _ _ _ h (ih here.dropLast (resolve_up moves ▸ h))
      | enter name =>
        rcases resolve_enter h with
          ⟨hdir, hmore⟩ | ⟨rfl, rfl, hnode, hnot⟩ | ⟨rooted, target, n, htarget, rfl, -, hmore⟩
        · exact dir _ _ _ _ h hdir (ih _ hmore)
        · exact last _ _ _ h rfl hnode hnot
        · exact link _ _ _ _ _ _ h htarget (hlink n rfl _ _ hmore)
  induction links generalizing moves here with
  | zero => exact hmoves 0 nofun moves here h
  | succ links ih =>
    refine hmoves (links + 1) (fun n hn moves here h => ?_) moves here h
    obtain rfl := Nat.succ.inj hn
    exact ih h

/-! ## More links -/

theorem resolveWith_mono {again again' : List (Move ν) → List ν → Except Fault (List ν)}
    (hagain : ∀ moves start, again moves start = .ok loc → again' moves start = .ok loc)
    (h : T.resolveWith again follow moves here = .ok loc) :
    T.resolveWith again' follow moves here = .ok loc := by
  induction moves generalizing here with
  | nil => exact h
  | cons move moves ih =>
    cases move with
    | stay => exact ih h
    | up => exact ih h
    | enter name =>
      rw [resolveWith] at h ⊢
      cases hnode : T (here ++ [name]) with
      | none =>
        rw [hnode] at h
        exact h
      | some node =>
        rw [hnode] at h
        cases node with
        | dir => exact ih h
        | file id => exact h
        | link rooted target =>
          dsimp only at h ⊢
          split at h
          · rename_i hcond
            rw [if_pos hcond]
            exact h
          · rename_i hcond
            rw [if_neg hcond]
            exact hagain _ _ h

theorem resolve_succ (h : T.resolve follow links moves here = .ok loc) :
    T.resolve follow (links + 1) moves here = .ok loc := by
  induction links generalizing moves here with
  | zero =>
    refine resolveWith_mono (fun _ _ hnever => ?_) h
    cases hnever
  | succ links ih => exact resolveWith_mono (fun _ _ => ih) h

theorem resolve_mono {more : ℕ} (hle : links ≤ more)
    (h : T.resolve follow links moves here = .ok loc) : T.resolve follow more moves here = .ok loc := by
  induction hle with
  | refl => exact h
  | step _ ih => exact resolve_succ ih

/-! ## Real directories -/

/-- A directory that is reached without links. -/
def RealDir (T : FileTree ν) (path : List ν) : Prop :=
  ∀ p, p <+: path → p ≠ [] → T p = some .dir

theorem realDir_nil : RealDir T [] := fun _ hprefix hne => absurd (prefix_nil.mp hprefix) hne

theorem RealDir.of_prefix {path p : List ν} (h : RealDir T path) (hp : p <+: path) : RealDir T p :=
  fun q hq => h q (hq.trans hp)

theorem RealDir.concat {name : ν} (h : RealDir T here) (hdir : T (here ++ [name]) = some .dir) :
    RealDir T (here ++ [name]) := fun p hp hne =>
  (prefix_concat_iff.mp hp).elim (fun heq => heq ▸ hdir) fun hp => h p hp hne

theorem RealDir.start (h : RealDir T here) : RealDir T (if rooted then [] else here) := by
  cases rooted
  · exact h
  · exact realDir_nil

/-- Names along real directories. -/
theorem resolve_real {rest : List (Move ν)} {path : List ν} (h : RealDir T (here ++ path)) :
    T.resolve follow links (names path ++ rest) here = T.resolve follow links rest (here ++ path) := by
  induction path generalizing here with
  | nil => rw [append_nil]; rfl
  | cons name path ih =>
    have hassoc : here ++ name :: path = here ++ [name] ++ path := by
      rw [append_assoc, singleton_append]
    have hdir : T (here ++ [name]) = some .dir := by
      refine h _ ?_ (append_ne_nil_of_right_ne_nil _ (cons_ne_nil _ _))
      rw [hassoc]
      exact prefix_append _ _
    show T.resolve follow links (.enter name :: (names path ++ rest)) here = _
    rw [resolve_dir hdir, hassoc]
    rw [hassoc] at h
    exact ih h

/-- A way that goes on has first come to a directory. -/
theorem resolve_append {moves : List (Move ν)} (hrest : rest ≠ []) (hhere : RealDir T here)
    (h : T.resolve follow links (moves ++ rest) here = .ok loc) :
    ∃ mid, T.resolve true links moves here = .ok mid ∧ RealDir T mid ∧
      T.resolve follow links rest mid = .ok loc := by
  have hnow {links : ℕ} {all : List (Move ν)} {here : List ν} (hall : all = [] ++ rest)
      (hhere : RealDir T here) (hwhole : T.resolve follow links all here = .ok loc) :
      ∃ mid, T.resolve true links [] here = .ok mid ∧ RealDir T mid ∧
        T.resolve follow links rest mid = .ok loc := by
    rw [nil_append] at hall
    exact ⟨here, resolve_nil, hhere, hall ▸ hwhole⟩
  refine resolve_induction (motive := fun links all here => ∀ moves, all = moves ++ rest →
    RealDir T here → ∃ mid, T.resolve true links moves here = .ok mid ∧ RealDir T mid ∧
      T.resolve follow links rest mid = .ok loc) ?_ ?_ ?_ ?_ ?_ ?_ h moves rfl hhere
  · exact fun _ moves hall => absurd (append_eq_nil_iff.mp hall.symm).2 hrest
  · intro links all here hwhole ih moves hall hhere
    rcases moves with - | ⟨move, moves⟩
    · exact hnow hall hhere hwhole
    · obtain ⟨rfl, htail⟩ := List.cons.inj hall
      rw [resolve_stay]
      exact ih moves htail hhere
  · intro links all here hwhole ih moves hall hhere
    rcases moves with - | ⟨move, moves⟩
    · exact hnow hall hhere hwhole
    · obtain ⟨rfl, htail⟩ := List.cons.inj hall
      rw [resolve_up]
      exact ih moves htail (hhere.of_prefix (List.dropLast_prefix here))
  · intro links name all here hwhole hdir ih moves hall hhere
    rcases moves with - | ⟨move, moves⟩
    · exact hnow hall hhere hwhole
    · obtain ⟨rfl, htail⟩ := List.cons.inj hall
      rw [resolve_dir hdir]
      exact ih moves htail (hhere.concat hdir)
  · intro links name here hwhole _ _ _ moves hall hhere
    rcases moves with - | ⟨move, moves⟩
    · exact hnow hall hhere hwhole
    · exact absurd (append_eq_nil_iff.mp (List.cons.inj hall).2.symm).2 hrest
  · intro links name all here rooted target hwhole hlink ih moves hall hhere
    rcases moves with - | ⟨move, moves⟩
    · exact hnow hall hhere hwhole
    · obtain ⟨rfl, rfl⟩ := List.cons.inj hall
      obtain ⟨mid, hmid, hreal, hmore⟩ := ih (target ++ moves) (append_assoc _ _ _).symm hhere.start
      refine ⟨mid, ?_, hreal, resolve_succ hmore⟩
      rw [resolve_link hlink (.inl rfl)]
      exact hmid

/-- What a path leads to: a real directory, or something else in one. -/
theorem resolve_place (hhere : RealDir T here) (h : T.resolve follow links moves here = .ok loc) :
    RealDir T loc ∨ ∃ dir name, loc = dir ++ [name] ∧ RealDir T dir ∧ T loc ≠ some .dir ∧
      (follow = true → ∀ rooted target, T loc ≠ some (.link rooted target)) := by
  refine resolve_induction (motive := fun _ _ here => RealDir T here → _) (fun _ => .inl)
    (fun _ _ _ _ ih => ih) (fun _ _ here _ ih hhere => ih (hhere.of_prefix (List.dropLast_prefix here)))
    (fun _ _ _ _ _ hdir ih hhere => ih (hhere.concat hdir))
    (fun _ name here _ heq hnode hnot hhere => ?_) (fun _ _ _ _ _ _ _ _ ih hhere => ih hhere.start) h hhere
  exact .inr ⟨here, name, heq, hhere, hnode, hnot⟩

/-- A place is in a real directory. -/
theorem realDir_of_resolve {dir : List ν} {name : ν}
    (h : T.resolve follow links moves [] = .ok (dir ++ [name])) : RealDir T dir := by
  rcases resolve_place realDir_nil h with hreal | ⟨dir', name', heq, hdir, -⟩
  · exact hreal.of_prefix (prefix_append _ _)
  · rw [(append_inj' heq rfl).1]
    exact hdir

/-- The place of a path is a path to itself. -/
theorem resolve_self (h : T.resolve follow links (names loc) [] = .ok here) (hplace : RealDir T loc ∨
    ∃ dir name, loc = dir ++ [name] ∧ RealDir T dir ∧ T loc ≠ some .dir ∧
      ∀ rooted target, T loc ≠ some (.link rooted target)) : here = loc := by
  rcases hplace with hreal | ⟨dir, name, rfl, hdir, hnode, hlink⟩
  · have hreal : RealDir T ([] ++ loc) := hreal
    have hself := @resolve_real ν T follow links [] [] loc hreal
    rw [append_nil, resolve_nil, h] at hself
    exact Except.ok.inj hself
  · have hdir : RealDir T ([] ++ dir) := hdir
    have hnames : names (dir ++ [name]) = names dir ++ [.enter name] := map_append
    rw [hnames, resolve_real hdir, nil_append] at h
    rcases resolve_enter h with ⟨hdir', -⟩ | ⟨-, heq, -⟩ | ⟨rooted, target, -, hlink', -⟩
    · exact absurd hdir' hnode
    · exact heq
    · exact absurd hlink' (hlink rooted target)

/-! ## Staying inside -/

/-- No link of the subtree leads out of it. -/
def LinksInside (T : FileTree ν) (links : ℕ) (root : List ν) : Prop :=
  ∀ dir name rooted moves loc, root <+: dir ++ [name] → RealDir T dir →
    T (dir ++ [name]) = some (.link rooted moves) →
    T.resolve true links moves (if rooted then [] else dir) = .ok loc → root <+: loc

variable {root : List ν}

/-- A way through a link of the subtree ends or comes to a directory inside. -/
theorem LinksInside.through (hlinks : LinksInside T links root) (hhere : RealDir T here) {name : ν}
    (hname : root <+: here ++ [name]) {moves : List (Move ν)}
    (hlink : T (here ++ [name]) = some (.link rooted moves)) {n : ℕ} (hn : n ≤ links)
    (hfollow : follow = true ∨ rest ≠ [])
    (h : T.resolve follow n (moves ++ rest) (if rooted then [] else here) = .ok loc) : root <+: loc ∨
      ∃ mid, root <+: mid ∧ RealDir T mid ∧ T.resolve follow n rest mid = .ok loc := by
  by_cases hrest : rest = []
  · rw [hrest, append_nil, hfollow.resolve_right (not_not_intro hrest)] at h
    exact .inl (hlinks here name rooted moves loc hname hhere hlink (resolve_mono hn h))
  · obtain ⟨mid, hmid, hreal, hloc⟩ := resolve_append hrest hhere.start h
    refine .inr ⟨mid, ?_, hreal, hloc⟩
    exact hlinks here name rooted moves mid hname hhere hlink (resolve_mono hn hmid)

theorem resolve_below (hlinks : LinksInside T links root) (hhere : RealDir T here)
    (hroot : root <+: here) {used : ℕ} (hused : used ≤ links + 1)
    (h : T.resolve follow used (names path) here = .ok loc) : root <+: loc := by
  induction path generalizing here used with
  | nil =>
    rw [names, map_nil, resolve_nil] at h
    rw [← Except.ok.inj h]
    exact hroot
  | cons name path ih =>
    have hname : root <+: here ++ [name] := hroot.trans (prefix_append _ _)
    rcases resolve_enter h with ⟨hdir, hmore⟩ | ⟨-, rfl, -⟩ | ⟨_, _, n, hlink, rfl, hfollow, hmore⟩
    · exact ih (hhere.concat hdir) hname hused hmore
    · exact hname
    · have hn : n ≤ links := Nat.le_of_succ_le_succ hused
      rcases hlinks.through hhere hname hlink hn hfollow hmore with h | ⟨mid, hmid, hreal, hloc⟩
      · exact h
      · exact ih hreal hmid (Nat.le_succ_of_le hn) hloc

/-- A path below the root of a subtree without links out of it. -/
theorem resolve_root (hlinks : LinksInside T links root) (hroot : RealDir T root.dropLast)
    (h : T.resolve follow (links + 1) (names (root ++ path)) [] = .ok loc) : root <+: loc := by
  rcases eq_nil_or_concat root with rfl | ⟨dir, name, rfl⟩
  · exact nil_prefix
  rw [concat_eq_append] at *
  rw [dropLast_concat] at hroot
  have hnames : names (dir ++ [name] ++ path) = names dir ++ .enter name :: names path := by
    unfold names
    rw [map_append, map_append, append_assoc]
    rfl
  have hreal : RealDir T ([] ++ dir) := hroot
  rw [hnames, resolve_real hreal, nil_append] at h
  rcases resolve_enter h with ⟨hdir, hmore⟩ | ⟨-, rfl, -⟩ | ⟨_, _, n, hlink, hn, hfollow, hmore⟩
  · exact resolve_below hlinks (hroot.concat hdir) prefix_rfl le_rfl hmore
  · exact prefix_rfl
  · obtain rfl := Nat.succ.inj hn
    rcases hlinks.through hroot prefix_rfl hlink le_rfl hfollow hmore with h | ⟨mid, hmid, hreal, hloc⟩
    · exact h
    · exact resolve_below hlinks hreal hmid (Nat.le_succ _) hloc

/-! ## Without links -/

/-- No name of the path is that of a link. -/
def NoLinks (T : FileTree ν) (path : List ν) : Prop :=
  ∀ p, p <+: path → p ≠ [] → ∀ rooted moves, T p ≠ some (.link rooted moves)

theorem NoLinks.of_prefix {path p : List ν} (h : NoLinks T path) (hp : p <+: path) : NoLinks T p :=
  fun q hq => h q (hq.trans hp)

theorem resolve_noLinks_from (hpath : NoLinks T (here ++ path))
    (h : T.resolve follow links (names path) here = .ok loc) : loc = here ++ path := by
  induction path generalizing here with
  | nil =>
    rw [names, map_nil, resolve_nil] at h
    rw [append_nil, Except.ok.inj h]
  | cons name path ih =>
    have hassoc : here ++ name :: path = here ++ [name] ++ path := by
      rw [append_assoc, singleton_append]
    rw [hassoc] at hpath ⊢
    rcases resolve_enter h with ⟨-, hmore⟩ | ⟨hnil, rfl, -⟩ | ⟨rooted, moves, n, hlink, -⟩
    · exact ih hpath hmore
    · rw [map_eq_nil_iff.mp hnil, append_nil]
    · refine absurd hlink (hpath _ (prefix_append _ _) ?_ rooted moves)
      exact append_ne_nil_of_right_ne_nil _ (cons_ne_nil _ _)

/-- A path without links leads to itself. -/
theorem resolve_noLinks (hpath : NoLinks T path)
    (h : T.resolve follow links (names path) [] = .ok loc) : loc = path :=
  resolve_noLinks_from hpath h

/-- The last name is not followed. -/
theorem resolve_last {name : ν} : T.resolve false links [.enter name] here = .ok (here ++ [name]) := by
  have hwith (again : List (Move ν) → List ν → Except Fault (List ν)) :
      T.resolveWith again false [.enter name] here = .ok (here ++ [name]) := by
    rw [resolveWith]
    cases T (here ++ [name]) with
    | none => rfl
    | some node =>
      cases node with
      | dir => rfl
      | file id => rfl
      | link rooted moves => rfl
  cases links with
  | zero => exact hwith _
  | succ links => exact hwith _

theorem resolve_child {dir : List ν} {name : ν} (hdir : RealDir T dir) :
    T.resolve false links (names (dir ++ [name])) [] = .ok (dir ++ [name]) := by
  have hreal : RealDir T ([] ++ dir) := hdir
  have hnames : names (dir ++ [name]) = names dir ++ [.enter name] := map_append
  rw [hnames, resolve_real hreal, nil_append, resolve_last]

/-! ## Closed trees -/

/-- Everything that exists is in directories. -/
def Closed (T : FileTree ν) : Prop :=
  ∀ path name, path ≠ [] → (T (path ++ [name])).isSome → T path = some .dir

theorem Closed.real (h : Closed T) (hpath : (T path).isSome) : RealDir T path.dropLast := by
  have hall (rest dir : List ν) (hsome : (T (dir ++ rest)).isSome) (hrest : rest ≠ []) :
      dir ≠ [] → T dir = some .dir := by
    intro hdir
    induction rest using List.reverseRecOn with
    | nil => exact absurd rfl hrest
    | append_singleton rest name ih =>
      rw [← append_assoc] at hsome
      have hparent := h _ name (append_ne_nil_of_left_ne_nil hdir _) hsome
      by_cases hnil : rest = []
      · rwa [hnil, append_nil] at hparent
      · exact ih (hparent ▸ rfl) hnil
  intro p hp hne
  have hpath' : path ≠ [] := fun hnil => by
    rw [hnil] at hp
    exact hne (prefix_nil.mp hp)
  obtain ⟨rest, heq⟩ := hp.trans (List.dropLast_prefix path)
  refine hall rest p (heq ▸ hpath) (fun hnil => ?_) hne
  rw [hnil, append_nil] at heq
  have hlength := hp.length_le
  rw [heq, length_dropLast] at hlength
  exact hpath' (length_eq_zero_iff.mp (by omega))

/-- Below what is not reached there are no links. -/
theorem Closed.noLinks_append (h : Closed T) (hpath : NoLinks T path)
    (hreal : ¬RealDir T path) (rest : List ν) : NoLinks T (path ++ rest) := by
  intro p hp hne rooted moves hlink
  rcases prefix_or_prefix_of_prefix hp (prefix_append path rest) with hp | ⟨more, rfl⟩
  · exact hpath p hp hne rooted moves hlink
  · by_cases hmore : more = []
    · rw [hmore, append_nil] at hlink hne
      exact hpath path prefix_rfl hne rooted moves hlink
    · have hdir := h.real (Option.isSome_iff_exists.mpr ⟨_, hlink⟩)
      rw [dropLast_append_of_ne_nil hmore] at hdir
      exact hreal (hdir.of_prefix (prefix_append _ _))

/-- Nothing is in what is no directory. -/
theorem Closed.none_of_not_dir (h : Closed T) (hne : path ≠ []) (name : ν)
    (hnode : T path ≠ some .dir) : T (path ++ [name]) = none := by
  rw [← Option.not_isSome_iff_eq_none]
  exact fun hsome => hnode (h path name hne hsome)

/-! ## Outside of a subtree -/

theorem not_below_of_dropLast {p : List ν} (h : p <+: root.dropLast) (hne : p ≠ []) : ¬root <+: p := by
  intro hroot
  have hlength := (hroot.trans h).length_le
  rw [length_dropLast] at hlength
  have hempty : root = [] := length_eq_zero_iff.mp (by omega)
  rw [hempty] at h
  exact hne (prefix_nil.mp h)

theorem RealDir.of_outside {T' : FileTree ν} (hagree : ∀ p, ¬root <+: p → T' p = T p)
    (h : RealDir T root.dropLast) : RealDir T' root.dropLast := fun p hp hne =>
  (hagree p (not_below_of_dropLast hp hne)).trans (h p hp hne)

theorem set_outside [DecidableEq ν] {p : List ν} (T : FileTree ν) (entry : Option (FileNode ν))
    (hhere : root <+: here) (h : ¬root <+: p) : T.set here entry p = T p :=
  set_ne entry fun heq => h (heq ▸ hhere)

theorem move_outside [DecidableEq ν] {a b p : List ν} (T : FileTree ν) (ha : root <+: a)
    (hb : root <+: b) (h : ¬root <+: p) : T.move a b p = T p :=
  move_other (fun hp => h (ha.trans hp)) (fun hp => h (hb.trans hp))

theorem closed_ofEntries [DecidableEq ν] {entries : List (List ν × FileNode ν)} {nextId : ℕ}
    (h : entries.all fun entry => entry.1.dropLast.isEmpty ||
      (Files.ofEntries entries nextId).tree entry.1.dropLast = some .dir) :
    Closed (Files.ofEntries entries nextId).tree := by
  intro path name hne hsome
  obtain ⟨entry, hentry⟩ := Option.isSome_iff_exists.mp (Option.isSome_map ▸ hsome)
  have hpath := find?_some hentry
  rw [decide_eq_true_eq] at hpath
  have hparent := all_eq_true.mp h entry (mem_of_find?_eq_some hentry)
  rw [hpath, dropLast_concat, Bool.or_eq_true, List.isEmpty_iff, decide_eq_true_eq] at hparent
  exact hparent.resolve_left hne

/-! ## Changes of closed trees -/

section

variable [DecidableEq ν] {dir : List ν} {name : ν}

/-- A new entry in a directory. -/
theorem Closed.set_some (h : Closed T) (hdir : RealDir T dir) (hnone : T (dir ++ [name]) = none)
    (node : FileNode ν) : Closed (T.set (dir ++ [name]) (some node)) := by
  intro path other hne hsome
  by_cases hpath : path = dir ++ [name]
  · have hchild : path ++ [other] ≠ dir ++ [name] := fun heq => by
      rw [hpath] at heq
      exact cons_ne_nil _ _ (append_right_eq_self.mp heq)
    rw [set_ne _ hchild, h.none_of_not_dir hne other (by rw [hpath, hnone]; nofun)] at hsome
    cases hsome
  · rw [set_ne _ hpath]
    by_cases hchild : path ++ [other] = dir ++ [name]
    · rw [(append_inj' hchild rfl).1]
      exact hdir dir prefix_rfl ((append_inj' hchild rfl).1 ▸ hne)
    · rw [set_ne _ hchild] at hsome
      exact h path other hne hsome

/-- An entry with nothing in it is taken away. -/
theorem Closed.set_none (h : Closed T) (hempty : ∀ name, T (path ++ [name]) = none) :
    Closed (T.set path none) := by
  intro p other hne hsome
  by_cases hchild : p ++ [other] = path
  · rw [hchild, set_eq] at hsome
    cases hsome
  · rw [set_ne _ hchild] at hsome
    by_cases hp : p = path
    · rw [hp, hempty other] at hsome
      cases hsome
    · rw [set_ne _ hp]
      exact h p other hne hsome

/-- A subtree is moved to a place that is not in it. -/
theorem Closed.move (h : Closed T) {a : List ν} (hdir : RealDir T dir) (hnot : ¬a <+: dir ++ [name])
    (ha : a ≠ []) : Closed (T.move a (dir ++ [name])) := by
  intro path other hne hsome
  have hbelow {p : List ν} (hp : dir ++ [name] <+: p) : ∃ rest, p = dir ++ [name] ++ rest :=
    hp.imp fun _ => Eq.symm
  by_cases hpath : dir ++ [name] <+: path
  · obtain ⟨rest, rfl⟩ := hbelow hpath
    rw [append_assoc, move_target, ← append_assoc] at hsome
    rw [move_target]
    exact h _ other (append_ne_nil_of_left_ne_nil ha _) hsome
  · by_cases hchild : dir ++ [name] <+: path ++ [other]
    · obtain ⟨rest, heq⟩ := hbelow hchild
      have hrest : rest = [] := by
        rcases eq_nil_or_concat rest with hnil | ⟨rest, last, rfl⟩
        · exact hnil
        · rw [concat_eq_append, ← append_assoc] at heq
          exact absurd ⟨rest, (append_inj' heq rfl).1.symm⟩ hpath
      rw [hrest, append_nil] at heq
      have hsame : path = dir := (append_inj' heq rfl).1
      have hapart : ¬a <+: path := fun hp => hnot (heq ▸ hp.trans (prefix_append _ _))
      rw [move_other hapart hpath, hsame]
      exact hdir dir prefix_rfl (hsame ▸ hne)
    · have hapart : ¬a <+: path ++ [other] := by
        intro hp
        unfold PathTree.move at hsome
        rw [if_neg (mt isPrefixOf_iff_prefix.mp hchild), if_pos (List.isPrefixOf_iff_prefix.mpr hp)] at hsome
        cases hsome
      rw [move_other hapart hchild] at hsome
      rw [move_other (fun hp => hapart (hp.trans (prefix_append _ _))) hpath]
      exact h path other hne hsome

end

end FileTree

end Taomni
