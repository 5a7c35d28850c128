import Xv6.Fs.Link

/-!
# Fs — paths as lists of elements

`namex` moves a cursor over the path with `skipelem`, locks each inode it comes to, and stops one element
early for `nameiparent`.  Over the elements of the path (what stands between slashes and is not empty, cut to
`DIRSIZ` bytes) this is a fold: `resolve` looks the elements up one after the other, and `resolveParent` all
but the last.

* `walk_false`, `walk_true`: the walk with the cursor is the fold over the elements.
* `slashes_eq`, `slash_behind`: a slash only separates, so one more makes no difference.
* `Sound.resolves`: the functions give what the fold gives.  They do not return only when they wait for a
  lock that is held, or find no room in the inode cache.

The names have to be those of inodes that are there (`Firm`): an entry for a free inode ends in a panic.
-/

namespace Xv6.Fs
open Lib Lib.Prog

/-! ### Elements -/

section Components
variable {path p q w name rest : List UInt8}

/-- The elements of a path. -/
def components (path : List UInt8) : List (List UInt8) :=
  ((path.splitOn 47).filter (· ≠ [])).map (·.take dirsiz)

@[simp] theorem components_nil : components [] = [] := rfl

/-- A slash only separates. -/
theorem components_append_slash : components (p ++ 47 :: q) = components p ++ components q := by
  have hsplit : (p ++ 47 :: q).splitOn 47 = p.splitOn 47 ++ q.splitOn 47 :=
    List.splitOnP_append_cons p q (beq_self_eq_true _)
  simp only [components, hsplit, List.filter_append, List.map_append]

theorem components_slash : components (47 :: q) = components q := components_append_slash (p := [])

theorem components_elem (hw : (47 : UInt8) ∉ w) (hne : w ≠ []) : components w = [w.take dirsiz] := by
  have hsplit : w.splitOn 47 = [w] := by
    refine List.splitOnP_eq_singleton fun c hc => ?_
    rw [beq_eq_false_iff_ne]
    rintro rfl
    exact hw hc
  simp [components, hsplit, hne]

theorem components_dropWhile : components (path.dropWhile (· = 47)) = components path := by
  induction path with
  | nil => rfl
  | cons c path ih =>
      by_cases hc : c = 47
      · subst hc
        rw [List.dropWhile_cons_of_pos (by decide), ih, components_slash]
      · rw [List.dropWhile_cons_of_neg (by simpa using hc)]

/-- The elements of what `skipelem` has stopped at: those before the next slash are one. -/
theorem components_takeWhile (hne : path.takeWhile (· ≠ 47) ≠ []) :
    components path =
      (path.takeWhile (· ≠ 47)).take dirsiz :: components (path.dropWhile (· ≠ 47)) := by
  have hw : (47 : UInt8) ∉ path.takeWhile (· ≠ 47) := fun h => by simpa using List.mem_takeWhile_imp h
  have helem := components_elem hw hne
  cases hrest : path.dropWhile (· ≠ 47) with
  | nil =>
      have hpath := List.takeWhile_append_dropWhile (p := (· ≠ (47 : UInt8))) (l := path)
      rw [hrest, List.append_nil] at hpath
      rw [components_nil, ← helem, hpath]
  | cons c rest =>
      have hc : c = 47 := by
        have := List.head?_dropWhile_not (· ≠ (47 : UInt8)) path
        rw [hrest] at this
        simpa using this
      subst hc
      have hpath := List.takeWhile_append_dropWhile (p := (· ≠ (47 : UInt8))) (l := path)
      rw [hrest] at hpath
      rw [components_slash]
      calc components path = components (path.takeWhile (· ≠ 47) ++ 47 :: rest) := by rw [hpath]
        _ = _ := by rw [components_append_slash, helem, List.singleton_append]

theorem components_of_none (h : skipelem path = none) : components path = [] := by
  rw [← components_dropWhile]
  unfold skipelem at h
  split at h
  · rename_i hdrop
    rw [hdrop]
    rfl
  · cases h

/-- A path that does not begin with a slash begins with an element. -/
theorem takeWhile_ne_nil (h : path.head? ≠ some 47) (hne : path ≠ []) : path.takeWhile (· ≠ 47) ≠ [] := by
  cases path with
  | nil => exact absurd rfl hne
  | cons c path =>
      have hc : c ≠ 47 := fun hc => h (by rw [hc, List.head?_cons])
      rw [List.takeWhile_cons_of_pos (by simpa using hc)]
      exact List.cons_ne_nil _ _

theorem head?_dropWhile_slash : (path.dropWhile (· = 47)).head? ≠ some 47 := by
  intro h
  have := List.head?_dropWhile_not (· = (47 : UInt8)) path
  rw [h] at this
  simp at this

theorem components_of_some (h : skipelem path = some (name, rest)) :
    components path = name :: components rest := by
  rw [← components_dropWhile]
  unfold skipelem at h
  split at h
  · cases h
  · rename_i hne
    cases h
    rw [components_takeWhile (takeWhile_ne_nil head?_dropWhile_slash hne), components_dropWhile]

/-- `nameiparent` asks whether the cursor is at the end: `skipelem` has passed the slashes. -/
theorem rest_eq_nil (h : skipelem path = some (name, rest)) : rest = [] ↔ components rest = [] := by
  have hhead : rest.head? ≠ some 47 := by
    unfold skipelem at h
    split at h
    · cases h
    · cases h
      exact head?_dropWhile_slash
  refine ⟨fun hrest => by rw [hrest]; rfl, fun hnone => ?_⟩
  by_contra hne
  rw [components_takeWhile (takeWhile_ne_nil hhead hne)] at hnone
  cases hnone

end Components

/-! ### The fold -/

section Resolve
variable {f : Nat → Option Node} {i : Nat} {path name : List UInt8} {names : List (List UInt8)}

/-- The inode under a name in the directory `i`. -/
def lookupIn (f : Nat → Option Node) (i : Nat) (name : List UInt8) : Option Nat :=
  (f i).bind fun nd => if nd.type = tDir then (lookup nd.data name).map Dirent.inum else none

/-- The names are looked up from left to right, beginning in `i`. -/
def resolve (f : Nat → Option Node) (i : Nat) (names : List (List UInt8)) : Option Nat :=
  names.foldlM (lookupIn f) i

/-- The names but the last lead to a directory; the last is left. -/
def resolveParent (f : Nat → Option Node) (i : Nat) (names : List (List UInt8)) :
    Option (Nat × List UInt8) :=
  names.getLast?.bind fun name => (resolve f i names.dropLast).bind fun d =>
    if (f d).any (·.type = tDir) then some (d, name) else none

theorem resolve_cons : resolve f i (name :: names) = (lookupIn f i name).bind fun j => resolve f j names :=
  rfl

theorem resolveParent_single :
    resolveParent f i [name] = if (f i).any (·.type = tDir) then some (i, name) else none := rfl

theorem resolveParent_cons (hne : names ≠ []) :
    resolveParent f i (name :: names) = (lookupIn f i name).bind fun j => resolveParent f j names := by
  obtain ⟨last, hlast⟩ := Option.ne_none_iff_exists'.mp fun h => hne (List.getLast?_eq_none_iff.mp h)
  have hcons : (name :: names).getLast? = some last := by
    rw [List.getLast?_cons, hlast]
    rfl
  simp only [resolveParent, hcons, hlast, List.dropLast_cons_of_ne_nil hne, resolve_cons, Option.bind_some,
    Option.bind_assoc]

/-- The walk with the cursor, from a node on. -/
theorem walk_of_some {parent : Bool} {rest : List UInt8} (h : skipelem path = some (name, rest)) :
    walk f parent i path =
      if parent ∧ rest = [] then (if (f i).any (·.type = tDir) then some (i, name) else none)
      else (lookupIn f i name).bind fun j => walk f parent j rest := by
  cases hi : f i with
  | none =>
      rw [walk]
      split
      · rename_i h'
        rw [h] at h'
        cases h'
      · simp [hi, lookupIn]
  | some nd =>
      rw [walk_some h hi, lookupIn, hi]
      by_cases ht : nd.type = tDir
      · simp [ht, Option.bind_map]
      · simp [ht]

theorem walk_false : walk f false i path = (resolve f i (components path)).map (·, []) := by
  induction hlen : path.length using Nat.strong_induction_on generalizing i path with
  | _ n ih =>
      subst hlen
      cases hskip : skipelem path with
      | none =>
          rw [walk_none hskip, components_of_none hskip]
          rfl
      | some r =>
          obtain ⟨name, rest⟩ := r
          rw [walk_of_some hskip, components_of_some hskip, resolve_cons, if_neg (by simp)]
          cases lookupIn f i name with
          | none => rfl
          | some j => exact ih rest.length (skipelem_lt hskip) rfl

theorem walk_true : walk f true i path = resolveParent f i (components path) := by
  induction hlen : path.length using Nat.strong_induction_on generalizing i path with
  | _ n ih =>
      subst hlen
      cases hskip : skipelem path with
      | none =>
          rw [walk_none hskip, components_of_none hskip]
          rfl
      | some r =>
          obtain ⟨name, rest⟩ := r
          rw [walk_of_some hskip, components_of_some hskip]
          by_cases hrest : rest = []
          · rw [if_pos ⟨rfl, hrest⟩, (rest_eq_nil hskip).mp hrest, resolveParent_single]
          · rw [if_neg fun h => hrest h.2, resolveParent_cons fun h => hrest ((rest_eq_nil hskip).mpr h)]
            cases lookupIn f i name with
            | none => rfl
            | some j => exact ih rest.length (skipelem_lt hskip) rfl

end Resolve

/-! ### Returning -/

section Returns
variable {L : Layout} {D : Dirs L} {H : Slot → Int} {s s' : State} {ip jp cwd : Slot} {i inum : Nat}
  {nd : Node} {e : Inode} {E : Stop → Prop} {path : List UInt8}

/-- The inodes that are locked were locked. -/
def Unlocks (s s' : State) : Prop := ∀ jp, (s'.icache jp).busy = true → (s.icache jp).busy = true

/-- Why a lookup does not return: there is no room in the inode cache, or it waits for a lock. -/
def Waits (s : State) (e : Stop) : Prop := e = .iget ∨ e = .sleeps ∧ ∃ jp, (s.icache jp).busy = true

theorem Waits.of_unlocks {e : Stop} (hu : Unlocks s s') (h : Waits s' e) : Waits s e := by
  obtain rfl | ⟨rfl, jp, hjp⟩ := h
  · exact .inl rfl
  · exact .inr ⟨rfl, jp, hu jp hjp⟩

theorem Unlocks.setSlot (h : e.busy = true → (s.icache ip).busy = true) : Unlocks s (s.setSlot ip e) := by
  intro jp hjp
  by_cases hne : jp = ip
  · subst hne
    rw [State.setSlot_self] at hjp
    exact h hjp
  · rwa [State.setSlot_of_ne hne] at hjp

theorem Got.unlocks (h : Got s inum ip e) : Unlocks s (s.setSlot ip e) := by
  obtain ⟨-, -, rfl⟩ | ⟨-, -, rfl⟩ := h
  · exact .setSlot id
  · exact .setSlot (by rintro ⟨⟩)

theorem Got.busy (h : Got s inum ip e) (hr : 0 < (s.icache jp).ref) (hjp : (s.icache jp).busy = true) :
    ((s.setSlot ip e).icache jp).busy = true := by
  by_cases hne : jp = ip
  · subst hne
    rw [State.setSlot_self]
    obtain ⟨-, -, rfl⟩ | ⟨h0, -, -⟩ := h
    · exact hjp
    · omega
  · rwa [State.setSlot_of_ne hne]

/-- `iput` only takes the reference away from an inode that has links, or that others refer to. -/
theorem iput_keeps (h : Sound D (plus H ip) s) (h0 : 0 ≤ H ip) (hF : Firm L H s) :
    Wp (iput ip) s E fun _ s' => Unlocks s s' := by
  have hpos := plus_pos h0
  simp only [iput, inode, wp_bind, wp_gets]
  rw [if_neg]
  · rw [wp_setInode]
    exact .setSlot id
  · rintro ⟨hone, hv, hn⟩
    obtain ⟨nd, hat⟩ := h.entry hpos hv
    have href := h.refs ip
    rw [plus_self] at href
    refine (hF.dead _ nd hat.node ?_).ref_ne_zero h rfl h0 (by omega)
    rw [← hat.nlink, hn]

theorem ilock_waits (h : Sound D H s) (hip : 0 < H ip) (hnode : node L s (s.icache ip).inum ≠ none) :
    Wp (ilock ip) s (Waits s) fun _ s' => (s'.icache ip).busy = true ∧
      ∀ jp, jp ≠ ip → (s'.icache jp).busy = true → (s.icache jp).busy = true := by
  have hr := h.ref_pos hip
  refine (ilock_cases h.good hr).mono (fun e he => ?_) ?_
  · obtain ⟨rfl, hbusy⟩ | ⟨rfl, ht⟩ := he
    · exact .inr ⟨rfl, ip, hbusy⟩
    · exact absurd ((node_eq_none (h.good.range ip hr).2).mpr ht) hnode
  · rintro - s' ⟨-, -, rfl, -⟩
    refine ⟨by rw [State.setSlot_self], fun jp hne hjp => ?_⟩
    rwa [State.setSlot_of_ne hne] at hjp

theorem iunlock_unlocks (h : Sound D H s) (hip : 0 < H ip) (hbusy : (s.icache ip).busy = true) :
    Wp (iunlock ip) s E fun _ s' =>
      ∀ jp, (s'.icache jp).busy = true → jp ≠ ip ∧ (s.icache jp).busy = true := by
  refine (iunlock_wp h.good (h.ref_pos hip) hbusy).post ?_
  rintro - s' ⟨rfl, -⟩ jp hjp
  by_cases hne : jp = ip
  · subst hne
    rw [State.setSlot_self] at hjp
    cases hjp
  · rw [State.setSlot_of_ne hne] at hjp
    exact ⟨hne, hjp⟩

theorem iunlockput_unlocks (h : Sound D (plus H ip) s) (h0 : 0 ≤ H ip) (hF : Firm L H s)
    (hbusy : (s.icache ip).busy = true) :
    Wp (iunlockput ip) s E fun _ s' =>
      ∀ jp, (s'.icache jp).busy = true → jp ≠ ip ∧ (s.icache jp).busy = true := by
  have hpos := plus_pos h0
  have hunlock : Wp (iunlock ip) s (fun _ => False) _ :=
    ((iunlock_sound h hpos).and (iunlock_unlocks (E := fun _ => False) h hpos hbusy)).mono
      (fun _ he => he.2) fun _ _ hs => hs
  refine hunlock.seq (fun _ he => he.elim) ?_
  rintro - s₁ ⟨⟨hs₁, hk, hn⟩, hu⟩
  refine (iput_keeps hs₁ h0 (hF.keep hk.of_plus hn)).post fun _ s₂ hu₂ jp hjp => ?_
  exact hu jp (hu₂ jp hjp)

/-- The directories are made of whole entries. -/
def WholeDirs (f : Nat → Option Node) : Prop :=
  ∀ d nd, f d = some nd → nd.type = tDir → nd.data.length % direntSize = 0

/-- What the loop keeps from one inode to the next: no more is locked than when it began. -/
theorem namexLoop_returns {parent : Bool} (h : Sound D (plus H ip) s) (h0 : ∀ jp, 0 ≤ H jp)
    (hF : Firm L H s) (hip : node L s (s.icache ip).inum ≠ none) (hwhole : WholeDirs (node L s)) :
    Wp (namexLoop parent ip path) s (Waits s) fun _ _ => True := by
  induction hlen : path.length using Nat.strong_induction_on generalizing ip s path with
  | _ n ih =>
      subst hlen
      have hpos := plus_pos (h0 ip)
      rw [namexLoop]
      split
      · split
        · exact (iput_keeps h (h0 ip) hF).bind fun _ _ _ => wp_pure.mpr trivial
        · exact wp_pure.mpr trivial
      · rename_i name rest hskip
        refine ((ilock_sound h hpos).and (ilock_waits h hpos hip)).seq (fun _ he => he.2) ?_
        rintro - s₁ ⟨⟨hs₁, hk₁, hn₁, nd, hat⟩, hbusy, hu₁⟩
        have hF₁ : Firm L H s₁ := hF.keep hk₁.of_plus hn₁
        simp only [inode, wp_bind, wp_gets, hat.type]
        split
        · exact (iunlockput_unlocks hs₁ (h0 ip) hF₁ hbusy).bind fun _ _ _ => wp_pure.mpr trivial
        · rename_i ht
          rw [not_not] at ht
          split
          · exact (iunlock_unlocks hs₁ hpos hbusy).bind fun _ _ _ => wp_pure.mpr trivial
          · have hdir := hwhole _ nd (by rw [← hn₁]; exact hat.node) ht
            refine ((dirlookup_sound hs₁ hpos hat).and
              (dirlookup_locates hs₁ hpos hat ht hdir)).seq (fun _ he => .inl he.2.1) ?_
            rintro r s₂ ⟨⟨-, hr⟩, hr'⟩
            cases r with
            | none =>
                obtain ⟨rfl, -⟩ := hr
                exact (iunlockput_unlocks hs₁ (h0 ip) hF₁ hbusy).bind fun _ _ _ => wp_pure.mpr trivial
            | some r =>
                obtain ⟨next, off⟩ := r
                obtain ⟨k, de, hfound, -, hs₂, hk₂, hn₂, hinum, -⟩ := hr
                obtain ⟨j, inum, e, -, -, hgot, rfl⟩ := hr'
                have hF₂ : Firm L H _ := hF₁.keep hk₂.of_plus hn₂
                -- the entry is for a node
                have hnext := hF₂.closed _ nd (by rw [hn₂]; exact hat.node) ht de
                  (List.mem_of_getElem? hfound.get) hfound.inum
                rw [← hinum] at hnext
                have hat₂ := hat.keep_node hk₂ hpos hs₂ (hpos.trans_le (le_plus next ip))
                  (by rw [hn₂]; exact hat.node)
                rw [plus_comm] at hs₂
                have hF₂' := hF₂.plus hnext
                have h0' : 0 ≤ plus H next ip := (h0 ip).trans (le_plus next ip)
                refine ((iunlockput_quiet hs₂ h0' hat₂ fun _ : True => hF₂').and
                  (iunlockput_unlocks (E := fun _ => False) hs₂ h0' hF₂'
                    (hgot.busy (hs₁.ref_pos hpos) hbusy))).seq (fun _ he => he.2.elim) ?_
                rintro - s₃ ⟨⟨hs₃, hq₃⟩, hu₃⟩
                have hn₃ := hq₃.nodes trivial
                have hpos' := plus_pos (h0 next)
                have hn : node L s₃ = node L s := (hn₃.trans hn₂).trans hn₁
                refine (ih rest.length (skipelem_lt hskip) hs₃ (hF₂.keep hq₃.of_plus.keep hn₃) ?_
                  (by rw [hn]; exact hwhole) rfl).mono (fun _ he => he.of_unlocks ?_) fun _ _ h => h
                · rw [hq₃.keep.inum next hpos', hn₃]
                  exact hnext
                · intro jp hjp
                  obtain ⟨hne, hjp₂⟩ := hu₃ jp hjp
                  exact hu₁ jp hne (hgot.unlocks jp hjp₂)

theorem namex_returns {parent : Bool} (h : Sound D H s) (hcwd : 0 < H cwd) (hF : Firm L H s)
    (hwhole : WholeDirs (node L s)) :
    Wp (namex cwd parent path) s (Waits s) fun _ _ => True := by
  unfold namex
  split
  · refine ((iget_sound h (by decide) h.root).and (iget_wp h.good (by decide) h.root)).seq
      (fun _ he => .inl he.1) ?_
    rintro ip s' ⟨⟨hs', hk, hn, hinum⟩, e, hgot, rfl, -⟩
    have hF' := hF.keep hk hn
    refine (namexLoop_returns hs' h.nonneg hF' (by rw [hinum]; exact hF'.root)
      (by rw [hn]; exact hwhole)).mono (fun _ he => he.of_unlocks hgot.unlocks) fun _ _ h => h
  · refine ((idup_sound (E := fun _ => False) h hcwd).and
      (idup_wp (E := fun _ => False) h.good (h.ref_pos hcwd))).seq (fun _ he => he.1.elim) ?_
    rintro ip s' ⟨⟨rfl, hs', hk, hn, -⟩, -, rfl, -⟩
    have hF' := hF.keep hk hn
    have hu : Unlocks s (s.setSlot ip { s.icache ip with ref := (s.icache ip).ref + 1 }) := .setSlot id
    exact (namexLoop_returns hs' h.nonneg hF' (hF'.held ip hcwd)
      (by rw [hn]; exact hwhole)).mono (fun _ he => he.of_unlocks hu) fun _ _ h => h

/-- `namex` gives what the walk gives, or waits. -/
theorem namex_walks {parent : Bool} (h : Sound D H s) (hcwd : 0 < H cwd) (hF : Firm L H s)
    (hwhole : WholeDirs (node L s)) (hpath : (0 : UInt8) ∉ path) :
    Wp (namex cwd parent path) s (Waits s) fun r s' =>
      r.map (fun x => ((s'.icache x.1).inum, x.2)) =
        walk (node L s) parent (start (s.icache cwd).inum path) path := by
  refine ((namex_sound h hcwd (fun _ : True => hF) hpath).and (namex_returns h hcwd hF hwhole)).mono
    (fun _ he => he.2) fun r s' hr => ?_
  cases r with
  | none => exact (hr.1.2.2 trivial).symm
  | some r => exact (hr.1.2.2.2.2 trivial).symm

/-- `namei` and `nameiparent` give what the fold gives, when they return. -/
structure Resolves (L : Layout) (s : State) (cwd : Slot) (path : List UInt8) : Prop where
  namei : Wp (namei cwd path) s (Waits s) fun r s' => r.map (fun ip => (s'.icache ip).inum) =
    resolve (node L s) (start (s.icache cwd).inum path) (components path)
  nameiparent : Wp (nameiparent cwd path) s (Waits s) fun r s' =>
    r.map (fun x => ((s'.icache x.1).inum, x.2)) =
      resolveParent (node L s) (start (s.icache cwd).inum path) (components path)

theorem Sound.resolves (h : Sound D H s) (hcwd : 0 < H cwd) (hF : Firm L H s)
    (hwhole : WholeDirs (node L s)) (hpath : (0 : UInt8) ∉ path) : Resolves L s cwd path where
  namei := by
    refine (namex_walks h hcwd hF hwhole hpath).bind fun r s' hr => wp_pure.mpr ?_
    rw [walk_false] at hr
    have hfst := congrArg (Option.map Prod.fst) hr
    rw [Option.map_map, Option.map_map] at hfst
    rw [Option.map_map]
    exact hfst.trans Option.map_id'
  nameiparent := by
    refine (namex_walks h hcwd hF hwhole hpath).post fun r s' hr => ?_
    rw [← walk_true]
    exact hr

end Returns

/-! ### Slashes -/

section Slashes
variable {p q : List UInt8} {d : Nat}

/-- Two slashes are one. -/
theorem slashes_eq : start d (p ++ 47 :: 47 :: q) = start d (p ++ 47 :: q) ∧
    components (p ++ 47 :: 47 :: q) = components (p ++ 47 :: q) := by
  constructor
  · cases p with
    | nil => rfl
    | cons c p => rfl
  · rw [components_append_slash, components_append_slash, components_slash]

/-- A slash behind the path is none, unless it is all of the path. -/
theorem slash_behind (hp : p ≠ []) :
    start d (p ++ [47]) = start d p ∧ components (p ++ [47]) = components p := by
  constructor
  · rw [start, start, List.head?_append_of_ne_nil p hp]
  · rw [components_append_slash, components_nil, List.append_nil]

end Slashes

end Xv6.Fs
