import UsbScope.Lib.FileSystem

/-! # Looking paths up

`Leads` is the lookup of a path as a relation, with the number of links followed;
facts about lookups are inductions on it. Opening files only adds to the tree
(`Extends`): old paths lead where they did, and what leads to an old place always
led there. Two paths therefore reach one file only if they already do, or if they
lead to one place (`reaches_distinct`). -/
namespace UsbScope.Lib
namespace FileSystem

variable {N : Type} (fs : FileSystem N)

/-! ## Lookups as a relation -/

theorem isDir_iff {loc : List N} : fs.isDir loc = true ↔ ∃ id, fs.node loc = some (.dir id) := by
  unfold isDir
  split
  · rename_i id h
    simp [h]
  · rename_i h
    simp only [Bool.false_eq_true, false_iff]
    intro hex
    obtain ⟨id, hid⟩ := hex
    exact h id hid

/-- A lookup from `loc` that follows the given number of links. -/
inductive Leads (create : Bool) : Nat → List N → Path N → List N → Prop
  | here {loc : List N} (target : create = true → fs.isDir loc = false) : Leads create 0 loc [] loc
  | stay {k : Nat} {loc L : List N} {s : Segment N} {rest : Path N} (dir : fs.isDir loc = true)
      (still : s = .empty ∨ s = .current) (next : Leads create k loc rest L) :
      Leads create k loc (s :: rest) L
  | up {k : Nat} {loc L : List N} {rest : Path N} (dir : fs.isDir loc = true)
      (next : Leads create k loc.tail rest L) : Leads create k loc (.parent :: rest) L
  | enter {k : Nat} {loc L : List N} {name : N} {rest : Path N} {x : Node N}
      (dir : fs.isDir loc = true) (entry : fs.node (name :: loc) = some x)
      (real : x.id ≠ none) (next : Leads create k (name :: loc) rest L) :
      Leads create k loc (.normal name :: rest) L
  | link {k : Nat} {loc L : List N} {name : N} {rest target : Path N}
      (dir : fs.isDir loc = true) (entry : fs.node (name :: loc) = some (.symlink target))
      (next : Leads create k (startOf loc target) (target ++ rest) L) :
      Leads create (k + 1) loc (.normal name :: rest) L
  | missing {loc : List N} {name : N} (dir : fs.isDir loc = true)
      (entry : fs.node (name :: loc) = none) (creates : create = true) :
      Leads create 0 loc [.normal name] (name :: loc)

section
variable {fs} {create : Bool} {k : Nat} {loc L : List N} {p : Path N}

theorem leads_of_walkWith {follow : List N → Path N → Except Errno (List N)} {budget : Nat}
    (hfollow : ∀ l q, follow l q = .ok L → ∃ j < budget, fs.Leads create j l q L)
    (h : fs.walkWith create follow loc p = .ok L) : ∃ j ≤ budget, fs.Leads create j loc p L := by
  induction p generalizing loc with
  | nil =>
    rw [walkWith_nil] at h
    split at h
    · cases h
    · rename_i hd
      cases h
      refine ⟨0, Nat.zero_le _, .here fun hc => ?_⟩
      simpa [hc] using hd
  | cons s rest ih =>
    rw [walkWith_cons] at h
    split at h
    · rename_i hd
      cases s with
      | empty =>
        obtain ⟨j, hj, hl⟩ := ih h
        exact ⟨j, hj, .stay hd (.inl rfl) hl⟩
      | current =>
        obtain ⟨j, hj, hl⟩ := ih h
        exact ⟨j, hj, .stay hd (.inr rfl) hl⟩
      | parent =>
        obtain ⟨j, hj, hl⟩ := ih h
        exact ⟨j, hj, .up hd hl⟩
      | normal name =>
        dsimp only at h
        cases hn : fs.node (name :: loc) with
        | none =>
          rw [hn] at h
          dsimp only at h
          split at h
          · rename_i hc
            cases h
            rw [Bool.and_eq_true, List.isEmpty_iff] at hc
            obtain ⟨hc, rfl⟩ := hc
            exact ⟨0, Nat.zero_le _, .missing hd hn hc⟩
          · cases h
        | some x =>
          rw [hn] at h
          cases x with
          | symlink target =>
            obtain ⟨j, hj, hl⟩ := hfollow _ _ h
            exact ⟨j + 1, hj, .link hd hn hl⟩
          | dir id =>
            obtain ⟨j, hj, hl⟩ := ih h
            exact ⟨j, hj, .enter hd hn (by simp [Node.id]) hl⟩
          | file id =>
            obtain ⟨j, hj, hl⟩ := ih h
            exact ⟨j, hj, .enter hd hn (by simp [Node.id]) hl⟩
    · cases h

theorem leads_of_walk {budget : Nat} (h : fs.walk create budget loc p = .ok L) :
    ∃ j ≤ budget, fs.Leads create j loc p L := by
  induction budget generalizing loc p with
  | zero => exact leads_of_walkWith (fun _ _ hf => by cases hf) h
  | succ budget ih =>
    refine leads_of_walkWith (fun l q hf => ?_) h
    obtain ⟨j, hj, hl⟩ := ih hf
    exact ⟨j, by omega, hl⟩

/-- A lookup within the budget succeeds. -/
theorem walk_of_leads (h : fs.Leads create k loc p L) {budget : Nat} (hk : k ≤ budget) :
    fs.walk create budget loc p = .ok L := by
  -- how a walk goes on does not depend on the budget until a link is followed
  have unfolded : ∀ b, ∃ follow, fs.walk create b = fs.walkWith create follow := fun b => by
    cases b with
    | zero => exact ⟨_, rfl⟩
    | succ b => exact ⟨_, rfl⟩
  induction h generalizing budget with
  | here target =>
    obtain ⟨follow, hf⟩ := unfolded budget
    rw [hf, walkWith_nil]
    cases create with
    | false => rfl
    | true => simp [target rfl]
  | stay dir still _ ih =>
    have hw := ih hk
    obtain ⟨follow, hf⟩ := unfolded budget
    rw [hf] at hw ⊢
    rw [walkWith_cons, if_pos dir]
    rcases still with rfl | rfl
    · exact hw
    · exact hw
  | up dir _ ih =>
    have hw := ih hk
    obtain ⟨follow, hf⟩ := unfolded budget
    rw [hf] at hw ⊢
    rw [walkWith_cons, if_pos dir]
    exact hw
  | @enter _ _ _ _ _ x dir entry real _ ih =>
    have hw := ih hk
    obtain ⟨follow, hf⟩ := unfolded budget
    rw [hf] at hw ⊢
    rw [walkWith_cons, if_pos dir]
    dsimp only
    rw [entry]
    cases x with
    | symlink target => exact absurd rfl real
    | dir id => exact hw
    | file id => exact hw
  | link dir entry _ ih =>
    cases budget with
    | zero => omega
    | succ budget =>
      have hw := ih (show _ ≤ budget by omega)
      rw [walk, walkWith_cons, if_pos dir]
      dsimp only
      rw [entry]
      exact hw
  | missing dir entry creates =>
    obtain ⟨follow, hf⟩ := unfolded budget
    rw [hf, walkWith_cons, if_pos dir]
    dsimp only
    rw [entry, creates]
    rfl

theorem walk_eq_ok {budget : Nat} :
    fs.walk create budget loc p = .ok L ↔ ∃ j ≤ budget, fs.Leads create j loc p L := by
  constructor
  · exact leads_of_walk
  · intro h
    obtain ⟨j, hj, hl⟩ := h
    exact walk_of_leads hl hj

end

namespace Leads

variable {fs} {create : Bool} {k j : Nat} {loc D L L' : List N} {p q : Path N} {name : N}

/-- Lookups are functional. -/
theorem unique (h : fs.Leads create k loc p L) (h' : fs.Leads create j loc p L') : L = L' := by
  have hw := walk_of_leads h (le_max_left k j)
  rw [walk_of_leads h' (le_max_right k j)] at hw
  exact (Except.ok.inj hw).symm

/-- A lookup goes on where a first one ended. -/
theorem append (h : fs.Leads false k loc p D) (h' : fs.Leads create j D q L) :
    fs.Leads create (k + j) loc (p ++ q) L := by
  induction h with
  | here => simpa using h'
  | stay dir still _ ih => exact .stay dir still (ih h')
  | up dir _ ih => exact .up dir (ih h')
  | enter dir entry real _ ih => exact .enter dir entry real (ih h')
  | link dir entry _ ih =>
    rw [Nat.succ_add]
    exact .link dir entry (by simpa using ih h')
  | missing _ _ creates => cases creates

/-- A lookup passes the places its path leads through. Only its end may be missing. -/
theorem split (h : fs.Leads create k loc (p ++ q) L) (hq : q ≠ []) :
    ∃ i j D, fs.Leads false i loc p D ∧ fs.Leads create j D q L ∧ k = i + j := by
  -- nothing of the path before `q` is left
  have whole : ∀ {l r k}, fs.Leads create k l r L → q = r →
      ∃ i j D, fs.Leads false i l [] D ∧ fs.Leads create j D q L ∧ k = i + j := fun h hr =>
    ⟨0, _, _, .here (by simp), hr ▸ h, (Nat.zero_add _).symm⟩
  generalize hr : p ++ q = r at h
  induction h generalizing p with
  | here => exact absurd (List.append_eq_nil_iff.mp hr).2 hq
  | stay dir still next ih =>
    rcases List.append_eq_cons_iff.mp hr with ⟨rfl, hq'⟩ | ⟨p', rfl, hrest⟩
    · exact whole (.stay dir still next) hq'
    · obtain ⟨i, j, D, h1, h2, rfl⟩ := ih whole hrest.symm
      exact ⟨i, j, D, .stay dir still h1, h2, rfl⟩
  | up dir next ih =>
    rcases List.append_eq_cons_iff.mp hr with ⟨rfl, hq'⟩ | ⟨p', rfl, hrest⟩
    · exact whole (.up dir next) hq'
    · obtain ⟨i, j, D, h1, h2, rfl⟩ := ih whole hrest.symm
      exact ⟨i, j, D, .up dir h1, h2, rfl⟩
  | enter dir entry real next ih =>
    rcases List.append_eq_cons_iff.mp hr with ⟨rfl, hq'⟩ | ⟨p', rfl, hrest⟩
    · exact whole (.enter dir entry real next) hq'
    · obtain ⟨i, j, D, h1, h2, rfl⟩ := ih whole hrest.symm
      exact ⟨i, j, D, .enter dir entry real h1, h2, rfl⟩
  | @link k loc L name rest target dir entry next ih =>
    rcases List.append_eq_cons_iff.mp hr with ⟨rfl, hq'⟩ | ⟨p', rfl, hrest⟩
    · exact whole (.link dir entry next) hq'
    · have htarget : (target ++ p') ++ q = target ++ rest := by rw [List.append_assoc, hrest]
      obtain ⟨i, j, D, h1, h2, rfl⟩ := ih whole htarget
      exact ⟨i + 1, j, D, .link dir entry h1, h2, (Nat.succ_add i j).symm⟩
  | missing dir entry creates =>
    rcases List.append_eq_cons_iff.mp hr with ⟨rfl, hq'⟩ | ⟨p', rfl, hrest⟩
    · exact whole (.missing dir entry creates) hq'
    · exact absurd (List.append_eq_nil_iff.mp hrest.symm).2 hq

/-- Pieces that stay where they are do not matter for where a lookup leads. -/
theorem moves (h : fs.Leads false k loc p L) :
    ∃ j, fs.Leads false j loc (p.filter Segment.moves) L := by
  induction p generalizing k loc with
  | nil => exact ⟨k, h⟩
  | cons s rest ih =>
    cases h with
    | stay dir still next =>
      obtain ⟨j, hj⟩ := ih next
      refine ⟨j, ?_⟩
      rcases still with rfl | rfl
      · exact hj
      · exact hj
    | up dir next =>
      obtain ⟨j, hj⟩ := ih next
      exact ⟨j, .up dir hj⟩
    | enter dir entry real next =>
      obtain ⟨j, hj⟩ := ih next
      exact ⟨j, .enter dir entry real hj⟩
    | @link _ _ _ name _ target dir entry next =>
      by_cases hrest : rest = []
      · subst hrest
        exact ⟨_, .link dir entry next⟩
      · obtain ⟨i, j, D, h1, h2, _⟩ := split next hrest
        obtain ⟨j', hj'⟩ := ih h2
        exact ⟨_, .link dir entry (h1.append hj')⟩
    | missing _ _ creates => cases creates

/-- What was looked up exists and is not a link. -/
theorem reached (h : fs.Leads false k loc p L) (hp : p ≠ []) :
    ∃ x, fs.node L = some x ∧ x.id ≠ none := by
  have dir : ∀ l, fs.isDir l = true → ∃ x, fs.node l = some x ∧ x.id ≠ none := fun l hl => by
    obtain ⟨id, hid⟩ := fs.isDir_iff.mp hl
    exact ⟨_, hid, by simp [Node.id]⟩
  have here : ∀ {k loc p L}, fs.Leads false k loc p L →
      (∃ x, fs.node loc = some x ∧ x.id ≠ none) → ∃ x, fs.node L = some x ∧ x.id ≠ none := by
    intro k loc p L h
    induction h with
    | here => exact id
    | stay _ _ _ ih => exact ih
    | @up _ loc _ _ hd _ ih =>
      refine fun _ => ih ?_
      obtain ⟨id, hid⟩ := fs.isDir_iff.mp hd
      cases loc with
      | nil => exact ⟨_, hid, by simp [Node.id]⟩
      | cons name loc =>
        obtain ⟨id', hid'⟩ := fs.parents name loc (by simp [hid])
        exact ⟨_, hid', by simp [Node.id]⟩
    | enter _ entry real _ ih => exact fun _ => ih ⟨_, entry, real⟩
    | @link _ loc _ _ _ target hd _ _ ih =>
      refine fun _ => ih ?_
      unfold startOf
      split
      · obtain ⟨id, hid⟩ := fs.root
        exact ⟨_, hid, by simp [Node.id]⟩
      · exact dir loc hd
    | missing _ _ creates => cases creates
  refine here h ?_
  cases h with
  | here => exact absurd rfl hp
  | stay hd _ _ => exact dir _ hd
  | up hd _ => exact dir _ hd
  | enter hd _ _ _ => exact dir _ hd
  | link hd _ _ => exact dir _ hd
  | missing _ _ creates => cases creates

/-- A file is reached for reading as it is reached for creation. -/
theorem creating (h : fs.Leads false k loc p L) (hL : fs.isDir L = false) :
    fs.Leads true k loc p L := by
  induction h with
  | here => exact .here fun _ => hL
  | stay dir still _ ih => exact .stay dir still (ih hL)
  | up dir _ ih => exact .up dir (ih hL)
  | enter dir entry real _ ih => exact .enter dir entry real (ih hL)
  | link dir entry _ ih => exact .link dir entry (ih hL)
  | missing _ _ creates => cases creates

theorem reading (h : fs.Leads create k loc p L) (hL : fs.node L ≠ none) :
    fs.Leads false k loc p L := by
  induction h with
  | here => exact .here (by simp)
  | stay dir still _ ih => exact .stay dir still (ih hL)
  | up dir _ ih => exact .up dir (ih hL)
  | enter dir entry real _ ih => exact .enter dir entry real (ih hL)
  | link dir entry _ ih => exact .link dir entry (ih hL)
  | missing _ entry _ => exact absurd entry hL

end Leads

/-- The end of a lookup for creation: its path ends with a name, and either that name
is the place, or it is a link that leads there. -/
inductive Created : List N → N → List N → Prop
  | place {D : List N} {name : N} (real : ∀ target, fs.node (name :: D) ≠ some (.symlink target)) :
      Created D name (name :: D)
  | link {D L : List N} {name : N} {target : Path N} {k : Nat}
      (entry : fs.node (name :: D) = some (.symlink target))
      (next : fs.Leads true k (startOf D target) target L) : Created D name L

theorem isDir_tail {loc : List N} (h : fs.isDir loc = true) : fs.isDir loc.tail = true := by
  obtain ⟨id, hid⟩ := fs.isDir_iff.mp h
  cases loc with
  | nil => exact h
  | cons name loc => exact fs.isDir_iff.mpr (fs.parents name loc (by simp [hid]))

theorem Leads.last {fs : FileSystem N} {k : Nat} {loc L : List N} {p : Path N}
    (h : fs.Leads true k loc p L) (hp : p ≠ []) :
    ∃ a name i D, p = a ++ [.normal name] ∧ fs.Leads false i loc a D ∧ fs.isDir D = true ∧
      fs.Created D name L := by
  obtain ⟨a, s, rfl⟩ := List.eq_nil_or_concat' p |>.resolve_left hp
  obtain ⟨i, j, D, h1, h2, _⟩ := h.split (List.cons_ne_nil _ _)
  -- a piece without a name ends in a directory
  have stuck : ∀ {l j}, fs.isDir l = true → ¬ fs.Leads true j l [] L := fun hd hl => by
    cases hl with
    | here target => rw [target rfl] at hd; cases hd
  cases h2 with
  | stay dir still next => exact absurd next (stuck dir)
  | up dir next => exact absurd next (stuck (fs.isDir_tail dir))
  | @enter _ _ _ name _ x dir entry real next =>
    cases next
    refine ⟨a, name, i, D, rfl, h1, dir, .place fun target ht => ?_⟩
    rw [entry] at ht
    cases ht
    exact real rfl
  | @link _ _ _ name _ target dir entry next =>
    rw [List.append_nil] at next
    exact ⟨a, name, i, D, rfl, h1, dir, .link entry next⟩
  | @missing _ name dir entry =>
    exact ⟨a, name, i, D, rfl, h1, dir, .place fun target ht => by rw [entry] at ht; cases ht⟩

/-- The pieces below the root lead to an existing place without following links. -/
theorem leads_below {loc : List N} {x : Node N} (h : fs.node loc = some x) (hx : x.id ≠ none) :
    fs.Leads false 0 [] (Path.below loc) loc := by
  induction loc generalizing x with
  | nil => exact .here (by simp)
  | cons name loc ih =>
    obtain ⟨id, hid⟩ := fs.parents name loc (by simp [h])
    rw [Path.below_cons]
    exact (ih hid (by simp [Node.id])).append
      (.enter (fs.isDir_iff.mpr ⟨id, hid⟩) h hx (.here (by simp)))

theorem isDir_root : fs.isDir [] = true := fs.isDir_iff.mpr fs.root

theorem leads_rooted {loc : List N} {x : Node N} (h : fs.node loc = some x) (hx : x.id ≠ none) :
    fs.Leads false 0 [] (.empty :: Path.below loc) loc :=
  .stay fs.isDir_root (.inl rfl) (fs.leads_below h hx)

/-- Paths with the same start and the same moves lead to the same place. -/
theorem Leads.of_moves {fs : FileSystem N} {k j : Nat} {loc L L' : List N} {p q : Path N}
    (h : fs.Leads false k loc p L) (h' : fs.Leads false j loc q L')
    (hm : p.filter Segment.moves = q.filter Segment.moves) : L = L' := by
  obtain ⟨_, h⟩ := h.moves
  obtain ⟨_, h'⟩ := h'.moves
  rw [hm] at h
  exact h.unique h'

/-- What a link in `D` leads to, its target appended to the path of `D` leads to. -/
theorem Leads.join {fs : FileSystem N} {k : Nat} {D L : List N} {target : Path N}
    (hdir : fs.isDir D = true) (h : fs.Leads true k (startOf D target) target L) :
    fs.Leads true k (startOf fs.cwd ((Path.real D).join target)) ((Path.real D).join target) L ∧
      (Path.real D).join target ≠ [] := by
  have htarget : target ≠ [] := by
    rintro rfl
    cases h with
    | here free =>
      have hd : fs.isDir (startOf D []) = true := hdir
      rw [free rfl] at hd
      cases hd
  cases habs : target.isAbsolute with
  | true =>
    have hjoin : (Path.real D).join target = target := by rw [Path.join, if_pos habs]
    have hstart : startOf fs.cwd target = startOf D target := by
      rw [startOf, startOf, if_pos habs, if_pos habs]
    rw [hjoin, hstart]
    exact ⟨h, htarget⟩
  | false =>
    obtain ⟨id, hid⟩ := fs.isDir_iff.mp hdir
    have hstart : startOf D target = D := by simp [startOf, habs]
    have hroot : startOf fs.cwd (.empty :: (Path.below D ++ target)) = [] := by
      cases hcons : Path.below D ++ target with
      | nil => exact absurd (List.append_eq_nil_iff.mp hcons).2 htarget
      | cons => rfl
    rw [hstart] at h
    rw [Path.join_real D habs, hroot]
    have hjoined := (fs.leads_rooted hid (by simp [Node.id])).append h
    rw [Nat.zero_add] at hjoined
    exact ⟨hjoined, List.cons_ne_nil _ _⟩

/-! ## Growth -/

/-- A file system later: nothing is gone, and what is new are files of their own. -/
structure Extends (fs later : FileSystem N) : Prop where
  cwd : later.cwd = fs.cwd
  next : fs.next ≤ later.next
  kept : ∀ loc x, fs.node loc = some x → later.node loc = some x
  added : ∀ loc x, fs.node loc = none → later.node loc = some x →
    ∃ id, x = .file id ∧ fs.next ≤ id.ino
  alone : ∀ loc loc' x id, fs.node loc = none → later.node loc = some (.file id) →
    later.node loc' = some x → x.id = some id → loc' = loc

namespace Extends

variable {fs} {later last : FileSystem N} {create : Bool} {k : Nat} {loc L : List N} {p : Path N}

theorem refl (fs : FileSystem N) : fs.Extends fs where
  cwd := rfl
  next := le_rfl
  kept := fun _ _ h => h
  added := fun _ _ h h' => by rw [h] at h'; cases h'
  alone := fun _ _ _ _ h h' => by rw [h] at h'; cases h'

theorem trans (h : fs.Extends later) (h' : later.Extends last) : fs.Extends last where
  cwd := h'.cwd.trans h.cwd
  next := h.next.trans h'.next
  kept := fun loc x hx => h'.kept loc x (h.kept loc x hx)
  added := by
    intro loc x hnone hx
    cases hm : later.node loc with
    | some y =>
      obtain rfl := Option.some.inj ((h'.kept loc y hm).symm.trans hx)
      exact h.added loc y hnone hm
    | none =>
      obtain ⟨id, hid, hle⟩ := h'.added loc x hm hx
      exact ⟨id, hid, h.next.trans hle⟩
  alone := by
    intro loc loc' x id hnone hfile hx hid
    cases hm : later.node loc with
    | none => exact h'.alone loc loc' x id hm hfile hx hid
    | some y =>
      obtain rfl := Option.some.inj ((h'.kept loc y hm).symm.trans hfile)
      have hlt := later.fresh loc _ id hm rfl
      cases hm' : later.node loc' with
      | some z =>
        obtain rfl := Option.some.inj ((h'.kept loc' z hm').symm.trans hx)
        exact h.alone loc loc' z id hnone hm hm' hid
      | none =>
        obtain ⟨id', rfl, hle⟩ := h'.added loc' x hm' hx
        cases hid
        omega

theorem addFile [DecidableEq N] {name : N} {dir : List N} {d : FileId}
    (hdir : fs.node dir = some (.dir d)) (hfree : fs.node (name :: dir) = none) :
    fs.Extends (fs.addFile name dir d hdir hfree) where
  cwd := rfl
  next := Nat.le_succ _
  kept := by
    intro loc x hx
    rw [fs.addFile_of_ne hdir hfree, hx]
    rintro rfl
    rw [hfree] at hx
    cases hx
  added := by
    intro loc x hnone hx
    by_cases heq : loc = name :: dir
    · subst heq
      rw [fs.addFile_self] at hx
      exact ⟨_, (Option.some.inj hx).symm, le_rfl⟩
    · rw [fs.addFile_of_ne hdir hfree heq, hnone] at hx
      cases hx
  alone := by
    intro loc loc' x id hnone hfile hx hid
    by_cases heq : loc = name :: dir
    · subst heq
      by_contra hne
      rw [fs.addFile_of_ne hdir hfree hne] at hx
      have hlt := fs.fresh loc' x id hx hid
      rw [fs.addFile_self] at hfile
      cases hfile
      exact lt_irrefl _ hlt
    · rw [fs.addFile_of_ne hdir hfree heq, hnone] at hfile
      cases hfile

theorem truncate (fs : FileSystem N) (id : FileId) : fs.Extends (fs.truncate id) :=
  ⟨rfl, le_rfl, (refl fs).kept, (refl fs).added, (refl fs).alone⟩

theorem isDir (h : fs.Extends later) : later.isDir loc = fs.isDir loc := by
  rw [Bool.eq_iff_iff, isDir_iff, isDir_iff]
  constructor
  · intro hd
    obtain ⟨id, hid⟩ := hd
    cases hn : fs.node loc with
    | none =>
      obtain ⟨id', hfile, _⟩ := h.added loc _ hn hid
      cases hfile
    | some x =>
      obtain rfl := Option.some.inj ((h.kept loc x hn).symm.trans hid)
      exact ⟨id, rfl⟩
  · intro hd
    obtain ⟨id, hid⟩ := hd
    exact ⟨id, h.kept loc _ hid⟩

theorem symlink (h : fs.Extends later) {target : Path N}
    (hl : later.node loc = some (.symlink target)) : fs.node loc = some (.symlink target) := by
  cases hn : fs.node loc with
  | none =>
    obtain ⟨id, hfile, _⟩ := h.added loc _ hn hl
    cases hfile
  | some x => rw [← hl, h.kept loc x hn]

/-- What led somewhere still does. -/
theorem leads (h : fs.Extends later) (hl : fs.Leads false k loc p L) :
    later.Leads false k loc p L := by
  induction hl with
  | here => exact .here (by simp)
  | stay dir still _ ih => exact .stay (h.isDir.trans dir) still ih
  | up dir _ ih => exact .up (h.isDir.trans dir) ih
  | enter dir entry real _ ih => exact .enter (h.isDir.trans dir) (h.kept _ _ entry) real ih
  | link dir entry _ ih => exact .link (h.isDir.trans dir) (h.kept _ _ entry) ih
  | missing _ _ creates => cases creates

/-- What leads to an old place always did. -/
theorem leads_old (h : fs.Extends later) (hl : later.Leads create k loc p L)
    (hL : fs.node L ≠ none) : fs.Leads create k loc p L := by
  induction hl with
  | here target => exact .here fun hc => h.isDir.symm.trans (target hc)
  | stay dir still _ ih => exact .stay (h.isDir.symm.trans dir) still (ih hL)
  | up dir _ ih => exact .up (h.isDir.symm.trans dir) (ih hL)
  | @enter k loc L name rest x dir entry real next ih =>
    cases hn : fs.node (name :: loc) with
    | some y =>
      obtain rfl := Option.some.inj ((h.kept _ y hn).symm.trans entry)
      exact .enter (h.isDir.symm.trans dir) hn real (ih hL)
    | none =>
      -- a lookup that comes to a new file ends there
      obtain ⟨id, rfl, _⟩ := h.added _ x hn entry
      have hfile : later.isDir (name :: loc) = false := by
        rw [h.isDir, FileSystem.isDir, hn]
      cases next with
      | here => exact absurd hn hL
      | stay hd _ _ => rw [hfile] at hd; cases hd
      | up hd _ => rw [hfile] at hd; cases hd
      | enter hd _ _ _ => rw [hfile] at hd; cases hd
      | link hd _ _ => rw [hfile] at hd; cases hd
      | missing hd _ _ => rw [hfile] at hd; cases hd
  | link dir entry _ ih =>
    exact .link (h.isDir.symm.trans dir) (h.symlink entry) (ih hL)
  | @missing loc name dir entry _ =>
    cases hn : fs.node (name :: loc) with
    | none => exact absurd hn hL
    | some y => rw [h.kept _ y hn] at entry; cases entry

end Extends

/-! ## Opened files -/

section
variable {fs} {later last : FileSystem N} {create : Bool} {L : List N} {p q : Path N} {id : FileId}

theorem lookup_eq_ok : fs.lookup create p = .ok L ↔
    p.isEmptyText = false ∧ ∃ k ≤ maxSymlinks, fs.Leads create k (startOf fs.cwd p) p L := by
  unfold lookup
  split
  · rename_i h
    simp [h]
  · rename_i h
    rw [walk_eq_ok]
    simp [h]

theorem ne_nil_of_text (h : p.isEmptyText = false) : p ≠ [] := by
  rintro rfl
  cases h

theorem metadata_eq_ok : fs.metadata p = .ok id ↔
    ∃ L x, fs.lookup false p = .ok L ∧ fs.node L = some x ∧ x.id = some id := by
  unfold metadata
  cases fs.lookup false p with
  | error e => simp [bind, Except.bind]
  | ok L =>
    simp only [bind, Except.bind, Except.ok.injEq, exists_and_left, exists_eq_left']
    cases hx : fs.node L with
    | none => simp
    | some x => cases hid : x.id <;> simp [hid]

theorem canonicalize_eq_ok {r : Path N} : fs.canonicalize p = .ok r ↔
    ∃ L, fs.lookup false p = .ok L ∧ Path.real L = r := by
  unfold canonicalize
  cases fs.lookup false p with
  | error e => simp [bind, Except.bind]
  | ok L => simp [bind, Except.bind]

theorem directoryOf_real {name : N} {D : List N} {x : Node N} (h : fs.node D = some x)
    (hx : x.id ≠ none) : fs.directoryOf (Path.real (name :: D)) =
      if fs.isDir D then .ok D else .error .notDirectory := by
  have hwalk : fs.walk false maxSymlinks (startOf fs.cwd (Path.real (name :: D)))
      (Path.real (name :: D)).dropLast = .ok D := by
    have hpath : Path.real (name :: D) = (.empty :: Path.below D) ++ [.normal name] := by
      rw [Path.real_cons, Path.below_cons, List.cons_append]
    have hstart : startOf fs.cwd (Path.real (name :: D)) = [] := by
      rw [hpath]
      cases Path.below D <;> rfl
    rw [hstart, hpath, List.dropLast_concat]
    exact walk_of_leads (fs.leads_rooted h hx) (Nat.zero_le _)
  unfold directoryOf
  rw [hwalk]
  rfl

/-- `lstat` of a canonical path looks at its last name. -/
theorem symlinkMetadata_real {name : N} {D : List N} {x : Node N} (h : fs.node D = some x)
    (hx : x.id ≠ none) : fs.symlinkMetadata (Path.real (name :: D)) =
      if fs.isDir D then
        match fs.node (name :: D) with
        | some x => .ok x
        | none => .error .notFound
      else .error .notDirectory := by
  have hlast : (Path.real (name :: D)).getLast? = some (.normal name) := by
    rw [Path.real_cons, Path.below_cons, ← List.cons_append, List.getLast?_concat]
  unfold symlinkMetadata
  rw [hlast]
  dsimp only
  rw [directoryOf_real h hx]
  by_cases hd : fs.isDir D = true
  · rw [if_pos hd, if_pos hd]
    rfl
  · rw [if_neg hd, if_neg hd]
    rfl

/-- Opening `p` in the state `fs` reached the file `id`, which is in the state `later`. -/
def Reaches (fs later : FileSystem N) (p : Path N) (id : FileId) : Prop :=
  p.isEmptyText = false ∧ ∃ k ≤ maxSymlinks, ∃ L x, later.node L = some x ∧ x.id = some id ∧
    (fs.Leads true k (startOf fs.cwd p) p L ∨
      fs.Leads false k (startOf fs.cwd p) p L ∧ fs.isDir L = true)

theorem Reaches.mono (h : fs.Reaches later p id) (hext : later.Extends last) :
    fs.Reaches last p id := by
  obtain ⟨htext, k, hk, L, x, hx, hid, hl⟩ := h
  exact ⟨htext, k, hk, L, x, hext.kept L x hx, hid, hl⟩

/-- A file that was there before is the one that `stat` sees. -/
theorem Reaches.metadata {now : FileSystem N} (h : now.Reaches last p id) (hnow : fs.Extends now)
    (hlast : fs.Extends last) (hold : id.ino < fs.next) : fs.metadata p = .ok id := by
  obtain ⟨htext, k, hk, L, x, hx, hid, hl⟩ := h
  cases hn : fs.node L with
  | none =>
    obtain ⟨id', rfl, hle⟩ := hlast.added L x hn hx
    cases hid
    omega
  | some y =>
    obtain rfl := Option.some.inj ((hlast.kept L y hn).symm.trans hx)
    have hL : fs.node L ≠ none := by simp [hn]
    refine metadata_eq_ok.mpr ⟨L, y, lookup_eq_ok.mpr ⟨htext, k, hk, ?_⟩, hn, hid⟩
    rw [← hnow.cwd]
    rcases hl with hl | hl
    · exact (hnow.leads_old hl hL).reading hL
    · exact hnow.leads_old hl.1 hL

/-- Any other file is new, and reached at its place. -/
theorem Reaches.new {now : FileSystem N} (h : now.Reaches last p id) (hnow : fs.Extends now)
    (hlast : fs.Extends last) (hnew : ¬ id.ino < fs.next) :
    ∃ k L, fs.node L = none ∧ last.node L = some (.file id) ∧
      now.Leads true k (startOf now.cwd p) p L := by
  obtain ⟨htext, k, hk, L, x, hx, hid, hl⟩ := h
  have hn : fs.node L = none := by
    by_contra hne
    obtain ⟨y, hy⟩ := Option.ne_none_iff_exists'.mp hne
    obtain rfl := Option.some.inj ((hlast.kept L y hy).symm.trans hx)
    exact hnew (fs.fresh L y id hy hid)
  obtain ⟨id', rfl, _⟩ := hlast.added L x hn hx
  cases hid
  rcases hl with hl | hl
  · exact ⟨k, L, hn, hx, hl⟩
  · have hd := hl.2
    rw [hnow.isDir, isDir, hn] at hd
    cases hd

/-- Two paths reach different files when they are different files for `stat` and lead
to different places when they are created. -/
theorem reaches_distinct {now now' : FileSystem N} {a b : FileId} (ha : now.Reaches last p a)
    (hb : now'.Reaches last q b) (hnow : fs.Extends now) (hnow' : fs.Extends now')
    (hlast : fs.Extends last) (hstat : ∀ id, fs.metadata p = .ok id → fs.metadata q ≠ .ok id)
    (hplace : ∀ k j L, now.Leads true k (startOf now.cwd p) p L →
      ¬ now'.Leads true j (startOf now'.cwd q) q L) : a ≠ b := by
  rintro rfl
  by_cases hold : a.ino < fs.next
  · exact hstat a (ha.metadata hnow hlast hold) (hb.metadata hnow' hlast hold)
  · obtain ⟨k, L, hn, hfile, hl⟩ := ha.new hnow hlast hold
    obtain ⟨j, L', hn', hfile', hl'⟩ := hb.new hnow' hlast hold
    obtain rfl := hlast.alone L' L _ a hn' hfile' hfile rfl
    exact hplace k j L hl hl'

end

section
variable {fs} {later : FileSystem N} {p : Path N} {id : FileId} {mode : Mode}

theorem directoryOf_eq_ok {dir : List N} : fs.directoryOf p = .ok dir ↔
    (∃ k ≤ maxSymlinks, fs.Leads false k (startOf fs.cwd p) p.dropLast dir) ∧
      fs.isDir dir = true := by
  rw [← walk_eq_ok]
  unfold directoryOf
  cases fs.walk false maxSymlinks (startOf fs.cwd p) p.dropLast with
  | error e => simp [bind, Except.bind]
  | ok L =>
    simp only [bind, Except.bind, Except.ok.injEq]
    split
    · rename_i hd
      simp only [Except.ok.injEq]
      constructor
      · rintro rfl
        exact ⟨rfl, hd⟩
      · exact fun h => h.1
    · rename_i hd
      simp only [reduceCtorEq, false_iff, not_and]
      rintro rfl
      exact hd

variable [DecidableEq N]

theorem openCreate_spec (h : fs.openCreate p = .ok (later, id)) :
    fs.Extends later ∧ fs.Reaches later p id ∧
      ∀ other, other ≠ id → later.contents other = fs.contents other := by
  unfold openCreate at h
  cases hlook : fs.lookup true p with
  | error e => rw [hlook] at h; cases h
  | ok loc =>
    rw [hlook] at h
    simp only [bind, Except.bind] at h
    obtain ⟨htext, k, hk, hl⟩ := lookup_eq_ok.mp hlook
    split at h
    · cases h
    · rename_i name dir
      split at h
      · rename_i d hfree hdir
        cases h
        exact ⟨.addFile hdir hfree,
          ⟨htext, k, hk, _, _, fs.addFile_self hdir hfree, rfl, .inl hl⟩,
          fun other hne => Function.update_of_ne hne _ _⟩
      · rename_i id' hfile
        cases h
        exact ⟨.truncate fs _, ⟨htext, k, hk, _, _, hfile, rfl, .inl hl⟩,
          fun other hne => Function.update_of_ne hne _ _⟩
      · cases h

theorem openCreateNew_spec (h : fs.openCreateNew p = .ok (later, id)) :
    fs.Extends later ∧ fs.Reaches later p id ∧
      ∀ other, other ≠ id → later.contents other = fs.contents other := by
  unfold openCreateNew at h
  split at h
  · rename_i name hlast
    have hp : p = p.dropLast ++ [.normal name] := by
      obtain ⟨a, ha⟩ := List.getLast?_eq_some_iff.mp hlast
      rw [ha, List.dropLast_concat]
    have htext : p.isEmptyText = false := by
      rw [hp]
      cases p.dropLast with
      | nil => rfl
      | cons s rest => cases s <;> cases rest <;> rfl
    cases hdirectory : fs.directoryOf p with
    | error e => rw [hdirectory] at h; cases h
    | ok dir =>
      rw [hdirectory] at h
      simp only [bind, Except.bind] at h
      obtain ⟨⟨k, hk, hl⟩, hd⟩ := directoryOf_eq_ok.mp hdirectory
      split at h
      · rename_i d hfree hdir
        cases h
        have hcreated := hl.append (.missing hd hfree rfl : fs.Leads true 0 dir [.normal name] _)
        rw [← hp] at hcreated
        exact ⟨.addFile hdir hfree,
          ⟨htext, k, hk, _, _, fs.addFile_self hdir hfree, rfl, .inl hcreated⟩,
          fun other hne => Function.update_of_ne hne _ _⟩
      · cases h
  · cases h

/-- Opening a file reaches it and touches no other one. -/
theorem openAs_spec (h : fs.openAs mode p = .ok (later, id)) :
    fs.Extends later ∧ fs.Reaches later p id ∧
      ∀ other, (mode ≠ .read → other ≠ id) → later.contents other = fs.contents other := by
  cases mode with
  | create =>
    obtain ⟨hext, hreach, hkept⟩ := openCreate_spec h
    exact ⟨hext, hreach, fun other hne => hkept other (hne (by simp))⟩
  | createNew =>
    obtain ⟨hext, hreach, hkept⟩ := openCreateNew_spec h
    exact ⟨hext, hreach, fun other hne => hkept other (hne (by simp))⟩
  | read =>
    unfold openAs at h
    cases hm : fs.metadata p with
    | error e => rw [hm] at h; cases h
    | ok id' =>
      rw [hm] at h
      cases h
      obtain ⟨L, x, hlook, hx, hid⟩ := metadata_eq_ok.mp hm
      obtain ⟨htext, k, hk, hl⟩ := lookup_eq_ok.mp hlook
      refine ⟨.refl fs, ⟨htext, k, hk, L, x, hx, hid, ?_⟩, fun _ _ => rfl⟩
      by_cases hd : fs.isDir L = true
      · exact .inr ⟨hl, hd⟩
      · exact .inl (hl.creating (by simpa using hd))

/-- A run of openings: the tree grows, every opened file was reached from a state on
the way, and what was not opened for writing keeps its contents. -/
theorem openAll_spec (fs : FileSystem N) (ops : List (Mode × Path N)) :
    fs.Extends (fs.openAll ops).1 ∧
      (∀ o ∈ (fs.openAll ops).2,
        ∃ now, fs.Extends now ∧ now.Reaches (fs.openAll ops).1 o.path o.id) ∧
      (∀ other, (∀ o ∈ (fs.openAll ops).2, o.mode ≠ .read → other ≠ o.id) →
        (fs.openAll ops).1.contents other = fs.contents other) ∧
      (fs.openAll ops).2.map (fun o => (o.mode, o.path)) <+: ops := by
  induction ops generalizing fs with
  | nil => exact ⟨.refl fs, by simp [openAll], fun _ _ => rfl, by simp [openAll]⟩
  | cons op rest ih =>
    obtain ⟨mode, p⟩ := op
    unfold openAll
    cases hop : fs.openAs mode p with
    | error e => exact ⟨.refl fs, by simp, fun _ _ => rfl, by simp⟩
    | ok opened =>
      obtain ⟨later, id⟩ := opened
      obtain ⟨hext, hreach, hkept⟩ := openAs_spec hop
      obtain ⟨hext', hreach', hkept', hops⟩ := ih later
      dsimp only
      refine ⟨hext.trans hext', ?_, ?_, ?_⟩
      · intro o ho
        rcases List.mem_cons.mp ho with rfl | ho
        · exact ⟨fs, .refl fs, hreach.mono hext'⟩
        · obtain ⟨now, hnow, ho⟩ := hreach' o ho
          exact ⟨now, hext.trans hnow, ho⟩
      · intro other hother
        rw [hkept' other fun o ho => hother o (List.mem_cons_of_mem _ ho)]
        exact hkept other (hother ⟨mode, p, id⟩ List.mem_cons_self)
      · rw [List.map_cons]
        exact List.prefix_cons_inj _ |>.mpr hops

end

end FileSystem
end UsbScope.Lib
