import BoostIrc.HttpServer

/-!
# The Table of Resources

The resources of a server are kept by path, and for a path by method. `start` copies them into
`opt_resource`, where they are kept by method, and `find_resource` searches this table. For each
method it adds an entry to the group that it finds, or makes a new group at the end.

## Main results

* `ServerBase.matchResource_start`: **the table finds what a search of the resources would find**.
* `ServerBase.matchResource_start_perm`: the order of the resources, which is that of a hash map,
  does not matter to a request that at most one of them serves.
-/

namespace BoostIrc

universe u

namespace ServerBase

variable {ρ : Type u} (regex : Bytes → Bytes → Option (List Bytes))

/-- An expression with its resource function. -/
abbrev Entry (ρ : Type u) := (Bytes → Option (List Bytes)) × ρ

/-- What the loops in `start` do for a method of a path: the entry goes to the first group of the
method, or to a new one at the end. -/
def addEntry (method : Bytes) (entry : Entry ρ) :
    List (Bytes × List (Entry ρ)) → List (Bytes × List (Entry ρ))
  | [] => [(method, [entry])]
  | group :: groups =>
      if method = group.1 then
        (group.1, group.2 ++ [entry]) :: groups
      else
        group :: addEntry method entry groups

/-- The copy of `resource` that `start` makes. `regex` compiles an expression, and `resource` is
in the order in which the loops go through it. -/
def start (resource : List (Bytes × List (Bytes × ρ))) (defaultResource : List (Bytes × ρ)) :
    ServerBase ρ where
  optResource := resource.foldl (fun optResource res =>
    res.2.foldl (fun optResource resMethod =>
      addEntry resMethod.1 (regex res.1, resMethod.2) optResource) optResource) []
  defaultResource := defaultResource

/-- A search of the resources themselves: the first path that matches and has the method. -/
def searchResource (resource : List (Bytes × List (Bytes × ρ))) (method path : Bytes) :
    Option (ρ × List Bytes) :=
  resource.findSome? fun res =>
    (res.2.lookup method).bind fun f => (regex res.1 path).map fun m => (f, m)

/-! ### The groups -/

/-- The entries for a method, in the order of a search. -/
def entriesFor (optResource : List (Bytes × List (Entry ρ))) (method : Bytes) :
    List (Entry ρ) :=
  optResource.flatMap fun group => if method = group.1 then group.2 else []

/-- The entries for a method are those of the first group, if it is the one of the method, and those
of the others. -/
@[simp] theorem entriesFor_cons (group : Bytes × List (Entry ρ))
    (groups : List (Bytes × List (Entry ρ))) (method : Bytes) :
    entriesFor (group :: groups) method =
      (if method = group.1 then group.2 else []) ++ entriesFor groups method := rfl

/-- The first entry that matches a path. -/
def searchEntries (entries : List (Entry ρ)) (path : Bytes) : Option (ρ × List Bytes) :=
  entries.findSome? fun entry => (entry.1 path).map fun m => (entry.2, m)

/-- The search in `find_resource` goes through these. -/
theorem findSome?_eq_searchEntries (optResource : List (Bytes × List (Entry ρ)))
    (method path : Bytes) :
    (optResource.findSome? fun res =>
        if method = res.1 then
          res.2.findSome? fun resPath => (resPath.1 path).map fun m => (resPath.2, m)
        else
          none) =
      searchEntries (entriesFor optResource method) path := by
  induction optResource with
  | nil => rfl
  | cons group groups ih =>
      have happend : searchEntries (entriesFor (group :: groups) method) path =
          (searchEntries (if method = group.1 then group.2 else []) path).or
            (searchEntries (entriesFor groups method) path) := by
        rw [entriesFor_cons, searchEntries, List.findSome?_append]
        rfl
      rw [List.findSome?_cons, ih, happend]
      split_ifs with hmethod
      · rw [← searchEntries]
        cases searchEntries group.2 path <;> rfl
      · rfl

/-! ### The loops of `start` -/

/-- A method has one group. -/
def Grouped (optResource : List (Bytes × List (Entry ρ))) : Prop :=
  (optResource.map Prod.fst).Nodup

/-- No method is without its group, and no group comes from elsewhere. -/
theorem mem_map_addEntry {name : Bytes} {entry : Entry ρ}
    {optResource : List (Bytes × List (Entry ρ))} {method : Bytes} :
    method ∈ (addEntry name entry optResource).map Prod.fst ↔
      method = name ∨ method ∈ optResource.map Prod.fst := by
  induction optResource with
  | nil => simp [addEntry]
  | cons group groups ih =>
      rw [addEntry]
      split_ifs with hname
      · simp [hname]
      · rw [List.map_cons, List.mem_cons, ih, List.map_cons, List.mem_cons]
        tauto

/-- An entry makes no second group for a method. -/
theorem Grouped.addEntry {optResource : List (Bytes × List (Entry ρ))}
    (h : Grouped optResource) (name : Bytes) (entry : Entry ρ) :
    Grouped (ServerBase.addEntry name entry optResource) := by
  induction optResource with
  | nil => simp [Grouped, ServerBase.addEntry]
  | cons group groups ih =>
      obtain ⟨hnew, hgroups⟩ := List.nodup_cons.mp h
      rw [ServerBase.addEntry]
      split_ifs with hname
      · exact h
      · refine List.nodup_cons.mpr ⟨fun hmem => ?_, ih hgroups⟩
        rcases mem_map_addEntry.mp hmem with heq | hmem
        · exact hname heq.symm
        · exact hnew hmem

/-- Where a method has no group, it has no entries. -/
theorem entriesFor_eq_nil {optResource : List (Bytes × List (Entry ρ))} {method : Bytes}
    (h : method ∉ optResource.map Prod.fst) : entriesFor optResource method = [] := by
  refine List.flatMap_eq_nil_iff.mpr fun group hgroup => if_neg ?_
  rintro rfl
  exact h (List.mem_map_of_mem hgroup)

/-- **An entry is the last of those for its method**, and the other methods do not get it. A method
that is new to the table gets a group of its own. -/
theorem entriesFor_addEntry {optResource : List (Bytes × List (Entry ρ))}
    (h : Grouped optResource) (name : Bytes) (entry : Entry ρ) (method : Bytes) :
    entriesFor (addEntry name entry optResource) method =
      entriesFor optResource method ++ if method = name then [entry] else [] := by
  induction optResource with
  | nil => simp [addEntry, entriesFor]
  | cons group groups ih =>
      obtain ⟨hnew, hgroups⟩ := List.nodup_cons.mp h
      rw [addEntry]
      split_ifs with hname hmethod hmethod
      · -- no group that follows has entries for it
        subst hmethod
        have hrest : entriesFor groups method = [] := entriesFor_eq_nil (hname ▸ hnew)
        simp [hname, hname ▸ hrest]
      · have hother : method ≠ group.1 := hname ▸ hmethod
        simp [hother]
      · rw [entriesFor_cons, ih hgroups, if_pos hmethod, entriesFor_cons, List.append_assoc]
      · rw [entriesFor_cons, ih hgroups, if_neg hmethod, entriesFor_cons, List.append_assoc]

/-- The entries of a path for a method. -/
def entriesOf (res : Bytes × List (Bytes × ρ)) (method : Bytes) : List (Entry ρ) :=
  (res.2.filter fun resMethod => method = resMethod.1).map fun resMethod =>
    (regex res.1, resMethod.2)

/-- The loop over the methods of a path adds an entry for each of them, at the end of the group of
the method. -/
theorem entriesFor_foldl_methods {optResource : List (Bytes × List (Entry ρ))}
    (h : Grouped optResource) (r : Bytes → Option (List Bytes)) (methods : List (Bytes × ρ)) :
    Grouped (methods.foldl (fun opt resMethod => addEntry resMethod.1 (r, resMethod.2) opt)
        optResource) ∧
      ∀ method,
        entriesFor (methods.foldl (fun opt resMethod => addEntry resMethod.1 (r, resMethod.2) opt)
            optResource) method =
          entriesFor optResource method ++
            (methods.filter fun resMethod => method = resMethod.1).map fun resMethod =>
              (r, resMethod.2) := by
  induction methods generalizing optResource with
  | nil => exact ⟨h, fun method => by simp⟩
  | cons resMethod methods ih =>
      obtain ⟨hgrouped, hentries⟩ := ih (h.addEntry resMethod.1 (r, resMethod.2))
      refine ⟨hgrouped, fun method => ?_⟩
      rw [List.foldl_cons, hentries, entriesFor_addEntry h, List.filter_cons]
      by_cases hmethod : method = resMethod.1
      · simp [hmethod]
      · simp [hmethod]

/-- **What `start` makes of the resources**: for each method the entries of all the paths, in the
order of the paths. -/
theorem entriesFor_start (resource : List (Bytes × List (Bytes × ρ)))
    (defaultResource : List (Bytes × ρ)) (method : Bytes) :
    entriesFor (start regex resource defaultResource).optResource method =
      resource.flatMap fun res => entriesOf regex res method := by
  suffices h : ∀ optResource : List (Bytes × List (Entry ρ)), Grouped optResource →
      entriesFor (resource.foldl (fun opt res => res.2.foldl (fun opt resMethod =>
          addEntry resMethod.1 (regex res.1, resMethod.2) opt) opt) optResource) method =
        entriesFor optResource method ++ resource.flatMap fun res => entriesOf regex res method from
    h [] List.nodup_nil
  induction resource with
  | nil => simp
  | cons res resource ih =>
      intro optResource hgrouped
      obtain ⟨hgrouped', hentries⟩ := entriesFor_foldl_methods hgrouped (regex res.1) res.2
      rw [List.foldl_cons, ih _ hgrouped', hentries, List.flatMap_cons, List.append_assoc]
      rfl

/-! ### The search -/

/-- Of the entries of a path for a method only the first counts. -/
theorem searchEntries_entriesOf (res : Bytes × List (Bytes × ρ)) (method path : Bytes) :
    searchEntries (entriesOf regex res method) path =
      (res.2.lookup method).bind fun f => (regex res.1 path).map fun m => (f, m) := by
  obtain ⟨expression, methods⟩ := res
  cases hmatch : regex expression path with
  | none =>
      have hnone : searchEntries (entriesOf regex (expression, methods) method) path = none := by
        refine List.findSome?_eq_none_iff.mpr fun entry hentry => ?_
        obtain ⟨resMethod, -, rfl⟩ := List.mem_map.mp hentry
        simp [hmatch]
      simp [hnone]
  | some m =>
      induction methods with
      | nil => rfl
      | cons resMethod methods ih =>
          obtain ⟨name, f⟩ := resMethod
          by_cases hmethod : method = name
          · subst hmethod
            simp [entriesOf, searchEntries, hmatch]
          · have hother : entriesOf regex (expression, (name, f) :: methods) method =
                entriesOf regex (expression, methods) method := by
              simp [entriesOf, hmethod]
            rw [hother, ih, List.lookup_cons, beq_false_of_ne hmethod]

/-- The entries of all the paths are searched path by path. -/
theorem searchEntries_flatMap (resource : List (Bytes × List (Bytes × ρ)))
    (method path : Bytes) :
    searchEntries (resource.flatMap fun res => entriesOf regex res method) path =
      searchResource regex resource method path := by
  induction resource with
  | nil => rfl
  | cons res resource ih =>
      rw [List.flatMap_cons, searchEntries, List.findSome?_append, ← searchEntries,
        ← searchEntries, ih, searchEntries_entriesOf, searchResource, searchResource,
        List.findSome?_cons]
      cases (res.2.lookup method).bind fun f => (regex res.1 path).map fun m => (f, m) <;> rfl

/-- The entries that `start` makes for a method are searched in the order of the resources. -/
theorem searchEntries_start (resource : List (Bytes × List (Bytes × ρ)))
    (defaultResource : List (Bytes × ρ)) (method path : Bytes) :
    searchEntries (entriesFor (start regex resource defaultResource).optResource method) path =
      searchResource regex resource method path := by
  rw [entriesFor_start, searchEntries_flatMap]

/-- **The table finds what a search of the resources would find**, for every method and path: the
first resource that has the method and whose path matches, and else the default of the method. -/
theorem matchResource_start (resource : List (Bytes × List (Bytes × ρ)))
    (defaultResource : List (Bytes × ρ)) (method path : Bytes) :
    (start regex resource defaultResource).matchResource method path =
      (searchResource regex resource method path).or
        ((defaultResource.lookup method).map fun f => (f, [])) := by
  rw [matchResource, findSome?_eq_searchEntries, searchEntries_start]
  rfl

/-! ### The order of the resources -/

/-- Where at most one element has a result, the order of the elements does not matter. -/
theorem findSome?_eq_of_perm {α β : Type*} {f : α → Option β} {l l' : List α} (h : l.Perm l')
    (hone : ∀ a ∈ l, ∀ b ∈ l, (f a).isSome → (f b).isSome → a = b) :
    l.findSome? f = l'.findSome? f := by
  cases hfound : l.findSome? f with
  | none =>
      have hnone := List.findSome?_eq_none_iff.mp hfound
      exact (List.findSome?_eq_none_iff.mpr fun a ha => hnone a (h.mem_iff.mpr ha)).symm
  | some x =>
      obtain ⟨a, ha, hx⟩ := List.exists_of_findSome?_eq_some hfound
      have hsome : (l'.findSome? f).isSome := by
        rw [List.findSome?_isSome_iff]
        exact ⟨a, h.mem_iff.mp ha, by simp [hx]⟩
      obtain ⟨y, hfound'⟩ := Option.isSome_iff_exists.mp hsome
      obtain ⟨b, hb, hy⟩ := List.exists_of_findSome?_eq_some hfound'
      obtain rfl := hone a ha b (h.mem_iff.mpr hb) (by simp [hx]) (by simp [hy])
      rw [hfound', ← hx, hy]

/-- The path of a resource matches, and it has the method. -/
def Serves (res : Bytes × List (Bytes × ρ)) (method path : Bytes) : Prop :=
  (res.2.lookup method).isSome ∧ (regex res.1 path).isSome

instance (res : Bytes × List (Bytes × ρ)) (method path : Bytes) :
    Decidable (Serves regex res method path) :=
  inferInstanceAs (Decidable (_ ∧ _))

/-- **The order of the resources does not matter** to a request that at most one of them
serves. -/
theorem matchResource_start_perm {resource resource' : List (Bytes × List (Bytes × ρ))}
    (hperm : resource.Perm resource') (defaultResource : List (Bytes × ρ)) (method path : Bytes)
    (hone : ∀ res ∈ resource, ∀ res' ∈ resource, Serves regex res method path →
      Serves regex res' method path → res = res') :
    (start regex resource defaultResource).matchResource method path =
      (start regex resource' defaultResource).matchResource method path := by
  have hserves : ∀ res : Bytes × List (Bytes × ρ),
      ((res.2.lookup method).bind fun f => (regex res.1 path).map fun m => (f, m)).isSome →
        Serves regex res method path := by
    intro res hsome
    obtain ⟨x, hx⟩ := Option.isSome_iff_exists.mp hsome
    obtain ⟨f, hf, hmatch⟩ := Option.bind_eq_some_iff.mp hx
    obtain ⟨m, hm, -⟩ := Option.map_eq_some_iff.mp hmatch
    exact ⟨by simp [hf], by simp [hm]⟩
  have hsearch : searchResource regex resource method path =
      searchResource regex resource' method path :=
    findSome?_eq_of_perm hperm fun res hres res' hres' h h' =>
      hone res hres res' hres' (hserves res h) (hserves res' h')
  rw [matchResource, findSome?_eq_searchEntries, searchEntries_start, hsearch, matchResource,
    findSome?_eq_searchEntries, searchEntries_start]
  rfl

/-- Two paths that have a method in common. -/
def twoPaths : List (Bytes × List (Bytes × ℕ)) :=
  [(ascii "/a", [(ascii "GET", 0), (ascii "POST", 1)]), (ascii "/b", [(ascii "POST", 2)])]

/-- An expression without special characters. -/
def literal (expression path : Bytes) : Option (List Bytes) :=
  if path = expression then some [path] else none

/-- Two paths in either order: a request for the second one finds the same. -/
theorem matchResource_start_perm_twoPaths :
    twoPaths.Perm twoPaths.reverse ∧
      (start literal twoPaths []).matchResource (ascii "POST") (ascii "/b") =
        (start literal twoPaths.reverse []).matchResource (ascii "POST") (ascii "/b") := by
  have hperm : twoPaths.Perm twoPaths.reverse := twoPaths.reverse_perm.symm
  exact ⟨hperm, matchResource_start_perm literal hperm [] (ascii "POST") (ascii "/b") (by decide)⟩

end ServerBase

end BoostIrc
