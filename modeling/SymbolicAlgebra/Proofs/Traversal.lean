/-
  SymbolicAlgebra.Proofs.Traversal — the walk over a tree visits every node once, children first.

  `Expr.nodes` is the recursive traversal: the nodes of all children from left to right, then the
  node itself. `Expr.places` says of each of them where it is, and a path leads to exactly one of them
  (`mem_places_iff`, `nodup_places`).

  The walk keeps only a stack and the place of its last visit. It goes through a subtree and nothing
  else as long as the last visit was not inside of it (`Walk.passes_node`): then it does not take the
  children for visited, and after the last child it finds the node on the stack again. Since a sibling
  is never inside of the next one, the children follow one another (`Walk.passes_siblings`). So the
  walk is the traversal, and it ends after two steps a node at most (`postOrder_recursive`).
-/

import SymbolicAlgebra.Expr.PostOrder
import SymbolicAlgebra.Proofs.FreeNames

namespace SymbolicAlgebra

/-! ## The traversal by recursion -/

namespace Expr

variable {α : Type}

mutual

/-- The nodes of a tree: those of its children from left to right, then the tree itself. -/
def nodes : Expr α → List (Expr α)
  | .const v => [.const v]
  | .var m => [.var m]
  | .sum ts => nodesAll ts ++ [.sum ts]
  | .product fs => nodesAll fs ++ [.product fs]
  | .matrix ⟨r, c, cells⟩ => nodesAll cells ++ [.matrix ⟨r, c, cells⟩]

/-- The nodes of trees side by side. -/
def nodesAll : List (Expr α) → List (Expr α)
  | [] => []
  | e :: es => nodes e ++ nodesAll es

end

mutual

/-- The places of the nodes, in the same order, of a tree that is at `path` itself. -/
def places (path : List Nat) : Expr α → List (Place α)
  | .const v => [⟨path, .const v⟩]
  | .var m => [⟨path, .var m⟩]
  | .sum ts => placesAll path 0 ts ++ [⟨path, .sum ts⟩]
  | .product fs => placesAll path 0 fs ++ [⟨path, .product fs⟩]
  | .matrix ⟨r, c, cells⟩ => placesAll path 0 cells ++ [⟨path, .matrix ⟨r, c, cells⟩⟩]

/-- The places of the nodes of siblings, the first of which is child number `i` of `path`. -/
def placesAll (path : List Nat) (i : Nat) : List (Expr α) → List (Place α)
  | [] => []
  | e :: es => places (i :: path) e ++ placesAll path (i + 1) es

end

/-- The node that a path leads to. -/
def follow (e : Expr α) : List Nat → Option (Expr α)
  | [] => some e
  | i :: path => (follow e path).bind fun x => x.children[i]?

variable {e : Expr α} {path : List Nat}

theorem size_eq (e : Expr α) : e.size = sizeAll e.children + 1 := by
  cases e <;> simp [size, sizeAll, children]

theorem nodes_eq (e : Expr α) : e.nodes = nodesAll e.children ++ [e] := by
  cases e <;> simp [nodes, nodesAll, children]

theorem places_eq (path : List Nat) (e : Expr α) : e.places path = placesAll path 0 e.children ++ [⟨path, e⟩] := by
  cases e <;> simp [places, placesAll, children]

theorem mem_nodesAll {x : Expr α} {es : List (Expr α)} : x ∈ nodesAll es ↔ ∃ e ∈ es, x ∈ e.nodes := by
  induction es with
  | nil => simp [nodesAll]
  | cons e es ih => simp [nodesAll, ih]

/-- The traversal finds what occurs in the tree. -/
theorem mem_nodes_iff {x : Expr α} : x ∈ e.nodes ↔ Occurs x e := by
  induction e using children_induction with
  | node e ih =>
    rw [nodes_eq, List.mem_append, mem_nodesAll, List.mem_singleton, occurs_iff, or_comm]
    exact or_congr_right (exists_congr fun c => and_congr_right fun hc => ih c hc)

theorem map_node_placesAll {es : List (Expr α)} {i : Nat}
    (h : ∀ e ∈ es, ∀ path, (e.places path).map Place.node = e.nodes) : (placesAll path i es).map Place.node = nodesAll es := by
  induction es generalizing i with
  | nil => rfl
  | cons e es ih =>
    obtain ⟨he, hes⟩ := List.forall_mem_cons.mp h
    rw [placesAll, List.map_append, he, ih hes, nodesAll]

theorem map_node_places (path : List Nat) (e : Expr α) : (e.places path).map Place.node = e.nodes := by
  induction e using children_induction generalizing path with
  | node e ih => rw [places_eq, nodes_eq, List.map_append, map_node_placesAll ih, List.map_singleton]

/-! ## Paths -/

/-- A path is followed from its outer end. -/
theorem follow_concat (e : Expr α) (path : List Nat) (i : Nat) :
    e.follow (path ++ [i]) = (e.children[i]?).bind fun c => c.follow path := by
  induction path with
  | nil => simp [follow]
  | cons k path ih => simp [follow, ih, Option.bind_assoc]

theorem mem_placesAll {p : Place α} {es : List (Expr α)} {i : Nat} :
    p ∈ placesAll path i es ↔ ∃ (k : Nat) (c : Expr α), es[k]? = some c ∧ p ∈ c.places ((i + k) :: path) := by
  induction es generalizing i with
  | nil => simp [placesAll]
  | cons e es ih =>
    rw [placesAll, List.mem_append, ih]
    constructor
    · rintro (h | ⟨k, c, hc, h⟩)
      · exact ⟨0, e, rfl, h⟩
      · exact ⟨k + 1, c, hc, by rwa [Nat.add_right_comm, Nat.add_assoc] at h⟩
    · rintro ⟨k, c, hc, h⟩
      cases k with
      | zero =>
        cases hc
        exact Or.inl h
      | succ k => exact Or.inr ⟨k, c, hc, by rwa [Nat.add_right_comm, Nat.add_assoc]⟩

/-- The places of the traversal are those to which a path leads. -/
theorem mem_places_iff {p : Place α} : p ∈ e.places path ↔ ∃ q, p.path = q ++ path ∧ e.follow q = some p.node := by
  induction e using children_induction generalizing path with
  | node e ih =>
    rw [places_eq, List.mem_append, mem_placesAll, List.mem_singleton]
    constructor
    · rintro (⟨k, c, hc, h⟩ | rfl)
      · rw [Nat.zero_add] at h
        obtain ⟨q, hq, hnode⟩ := (ih c (List.mem_of_getElem? hc)).mp h
        exact ⟨q ++ [k], by simp [hq], by rw [follow_concat, hc, Option.bind_some, hnode]⟩
      · exact ⟨[], rfl, rfl⟩
    · rintro ⟨q, hq, hnode⟩
      rcases List.eq_nil_or_concat' q with rfl | ⟨q, k, rfl⟩
      · refine Or.inr ?_
        cases p
        cases hnode
        cases hq
        rfl
      · rw [follow_concat] at hnode
        obtain ⟨c, hc, hnode⟩ := Option.bind_eq_some_iff.mp hnode
        refine Or.inl ⟨k, c, hc, (ih c (List.mem_of_getElem? hc)).mpr ⟨q, ?_, hnode⟩⟩
        rw [hq, List.append_assoc, Nat.zero_add]
        rfl

/-- Two paths of one length below the same place are one path. -/
theorem eq_of_suffix {i k : Nat} {q : List Nat} (hi : (i :: path) <:+ q) (hk : (k :: path) <:+ q) : i = k := by
  obtain ⟨s, rfl⟩ := hi
  obtain ⟨t, ht⟩ := hk
  have := (List.append_inj' ht rfl).2
  exact (List.cons.inj this).1.symm

theorem suffix_of_mem_places {p : Place α} (h : p ∈ e.places path) : path <:+ p.path := by
  obtain ⟨q, hq, -⟩ := mem_places_iff.mp h
  exact ⟨q, hq.symm⟩

theorem nodup_placesAll {es : List (Expr α)} {i : Nat} (h : ∀ e ∈ es, ∀ path, ((e.places path).map Place.path).Nodup) :
    ((placesAll path i es).map Place.path).Nodup := by
  induction es generalizing i with
  | nil => exact List.nodup_nil
  | cons e es ih =>
    obtain ⟨he, hes⟩ := List.forall_mem_cons.mp h
    rw [placesAll, List.map_append]
    refine List.nodup_append'.mpr ⟨he _, ih hes, ?_⟩
    intro q hq hq'
    obtain ⟨p, hp, rfl⟩ := List.mem_map.mp hq
    obtain ⟨p', hp', heq⟩ := List.mem_map.mp hq'
    obtain ⟨k, c, -, hp'⟩ := mem_placesAll.mp hp'
    have := eq_of_suffix (suffix_of_mem_places hp) (heq ▸ suffix_of_mem_places hp')
    omega

/-- No place comes twice, also where equal trees are at different places. -/
theorem nodup_places (path : List Nat) (e : Expr α) : ((e.places path).map Place.path).Nodup := by
  induction e using children_induction generalizing path with
  | node e ih =>
    rw [places_eq, List.map_append]
    refine List.nodup_append'.mpr ⟨nodup_placesAll ih, List.nodup_singleton _, ?_⟩
    intro q hq hq'
    obtain rfl := List.mem_singleton.mp hq'
    obtain ⟨p, hp, hpath⟩ := List.mem_map.mp hq
    obtain ⟨k, c, -, hp⟩ := mem_placesAll.mp hp
    have := (suffix_of_mem_places hp).length_le
    rw [hpath, List.length_cons] at this
    omega

end Expr

/-! ## Passing through a tree -/

/-- Siblings, the first of which is child number `i` of `path`. -/
def Place.siblings {α : Type} (path : List Nat) : Nat → List (Expr α) → List (Place α)
  | _, [] => []
  | i, e :: es => ⟨i :: path, e⟩ :: siblings path (i + 1) es

namespace Place

variable {α : Type} {path : List Nat}

theorem children_eq (path : List Nat) (e : Expr α) : (⟨path, e⟩ : Place α).children = siblings path 0 e.children := by
  have hfrom : ∀ (es : List (Expr α)) (i : Nat),
      (es.mapIdx fun k c => (⟨(i + k) :: path, c⟩ : Place α)) = siblings path i es := by
    intro es
    induction es with
    | nil => intro i; rfl
    | cons e es ih =>
      intro i
      rw [List.mapIdx_cons, siblings, ← ih (i + 1)]
      simp only [Nat.add_zero, Nat.add_right_comm, Nat.add_assoc]
  simpa [children] using hfrom e.children 0

theorem path_of_mem_siblings {p : Place α} {es : List (Expr α)} {i : Nat} (h : p ∈ siblings path i es) :
    ∃ k, p.path = k :: path := by
  induction es generalizing i with
  | nil => cases h
  | cons e es ih =>
    rcases List.mem_cons.mp h with rfl | h
    · exact ⟨i, rfl⟩
    · exact ih h

end Place

namespace Walk

variable {α : Type}

/-- So many steps lead from one walk to another, and visit these places on the way. -/
inductive Passes : Nat → Walk α → List (Place α) → Walk α → Prop
  | stay (w : Walk α) : Passes 0 w [] w
  | descend {n : Nat} {w w' w'' : Walk α} {ps : List (Place α)} (h : w.step = some (w', none)) (hp : Passes n w' ps w'') :
      Passes (n + 1) w ps w''
  | visit {n : Nat} {w w' w'' : Walk α} {p : Place α} {ps : List (Place α)} (h : w.step = some (w', some p.node))
      (hlast : w'.last = some p.path) (hp : Passes n w' ps w'') : Passes (n + 1) w (p :: ps) w''

theorem Passes.trans {n m : Nat} {w w' w'' : Walk α} {ps qs : List (Place α)} (h : Passes n w ps w')
    (h' : Passes m w' qs w'') : Passes (n + m) w (ps ++ qs) w'' := by
  induction h with
  | stay => simpa using h'
  | descend hs _ ih => exact Nat.succ_add _ _ ▸ .descend hs (ih h')
  | visit hs hlast _ ih => exact Nat.succ_add _ _ ▸ .visit hs hlast (ih h')

theorem Passes.visits {n : Nat} {w w' : Walk α} {ps : List (Place α)} (h : Passes n w ps w') (m : Nat) :
    visits (n + m) w = ps.map Place.node ++ visits m w' := by
  induction h with
  | stay => simp
  | descend hs _ ih => simp [Nat.succ_add, Walk.visits, hs, ih]
  | visit hs _ _ ih => simp [Nat.succ_add, Walk.visits, hs, ih]

theorem visits_of_empty (n : Nat) (last : Option (List Nat)) : visits n (⟨[], last⟩ : Walk α) = [] := by
  cases n <;> rfl

section
variable {p : Place α} {rest : List (Place α)} {last : Option (List Nat)}

theorem step_of_done (h : isDone ⟨p :: rest, last⟩ p = true) :
    step ⟨p :: rest, last⟩ = some (⟨rest, some p.path⟩, some p.node) := by
  simp [step, h]

theorem step_of_not_done (h : isDone ⟨p :: rest, last⟩ p = false) :
    step ⟨p :: rest, last⟩ = some (⟨p.children ++ p :: rest, last⟩, none) := by
  simp [step, h]

end

/-- The last visit was not at the place or below it. -/
def Outside (last : Option (List Nat)) (path : List Nat) : Prop := ∀ q, last = some q → ¬ path <:+ q

/-- The walk goes through the tree at the place and is back at the rest of its stack. -/
def PassesNode (e : Expr α) : Prop := ∀ (path : List Nat) (rest : List (Place α)) (last : Option (List Nat)),
  Outside last path → ∃ n ≤ 2 * e.size, Passes n ⟨⟨path, e⟩ :: rest, last⟩ (e.places path) ⟨rest, some path⟩

/-- Siblings are passed one after the other; the last visit is then the last of them. -/
theorem passes_siblings {es : List (Expr α)} (hes : ∀ e ∈ es, PassesNode e) (path : List Nat) (i : Nat)
    (rest : List (Place α)) {last : Option (List Nat)} (hlast : ∀ k, i ≤ k → Outside last (k :: path)) :
    ∃ n ≤ 2 * Expr.sizeAll es, Passes n ⟨Place.siblings path i es ++ rest, last⟩ (Expr.placesAll path i es)
      ⟨rest, ((Place.siblings path i es).getLast?.map Place.path).or last⟩ := by
  induction es generalizing i last with
  | nil => exact ⟨0, Nat.zero_le _, .stay _⟩
  | cons e es ih =>
    obtain ⟨he, hes⟩ := List.forall_mem_cons.mp hes
    obtain ⟨n, hn, hfirst⟩ := he (i :: path) (Place.siblings path (i + 1) es ++ rest) last (hlast i le_rfl)
    -- The first sibling is not inside of a later one.
    have hnext : ∀ k, i + 1 ≤ k → Outside (some (i :: path)) (k :: path) := by
      rintro k hk q ⟨⟩ hsuffix
      have := Expr.eq_of_suffix hsuffix List.suffix_rfl
      omega
    obtain ⟨m, hm, hrest⟩ := ih hes (i + 1) hnext
    have hend : ((Place.siblings path (i + 1) es).getLast?.map Place.path).or (some (i :: path)) =
        ((Place.siblings path i (e :: es)).getLast?.map Place.path).or last := by
      rw [Place.siblings, List.getLast?_cons]
      cases (Place.siblings path (i + 1) es).getLast? <;> rfl
    rw [hend] at hrest
    refine ⟨n + m, ?_, hfirst.trans hrest⟩
    rw [Expr.sizeAll]
    omega

theorem passes_node (e : Expr α) : PassesNode e := by
  induction e using Expr.children_induction with
  | node e ih =>
    intro path rest last hlast
    have hchildren := Place.children_eq path e
    rw [Expr.places_eq, Expr.size_eq]
    cases hc : (Place.siblings path 0 e.children).getLast? with
    | none =>
      -- No children: the node is visited at once.
      have hnil : e.children = [] := by
        have hsiblings := List.getLast?_eq_none_iff.mp hc
        cases hes : e.children with
        | nil => rfl
        | cons c cs =>
          rw [hes] at hsiblings
          cases hsiblings
      have hdone : isDone ⟨⟨path, e⟩ :: rest, last⟩ ⟨path, e⟩ = true := by rw [isDone, hchildren, hc]
      rw [hnil]
      exact ⟨1, by omega, .visit (step_of_done hdone) rfl (.stay _)⟩
    | some child =>
      obtain ⟨k, hk⟩ := Place.path_of_mem_siblings (List.mem_of_getLast? hc)
      have hbelow : path <:+ child.path := hk ▸ List.suffix_cons k path
      have hdescend : isDone ⟨⟨path, e⟩ :: rest, last⟩ ⟨path, e⟩ = false := by
        rw [isDone, hchildren, hc]
        exact beq_eq_false_iff_ne.mpr fun h => hlast _ h hbelow
      obtain ⟨n, hn, hpass⟩ := passes_siblings ih path 0 (⟨path, e⟩ :: rest)
        fun k _ q hq hsuffix => hlast q hq ((List.suffix_cons k path).trans hsuffix)
      rw [hc, Option.map_some, Option.some_or] at hpass
      have hdone : isDone ⟨⟨path, e⟩ :: rest, some child.path⟩ ⟨path, e⟩ = true := by
        rw [isDone, hchildren, hc]
        exact beq_self_eq_true _
      have hvisit : Passes 1 ⟨⟨path, e⟩ :: rest, some child.path⟩ [⟨path, e⟩] ⟨rest, some path⟩ :=
        .visit (step_of_done hdone) rfl (.stay _)
      have hstep := step_of_not_done hdescend
      rw [hchildren] at hstep
      exact ⟨n + 1 + 1, by omega, .descend hstep (hpass.trans hvisit)⟩

theorem passes_ofRoot (e : Expr α) : ∃ n ≤ 2 * e.size, Passes n (ofRoot e) (e.places []) ⟨[], some []⟩ :=
  passes_node e [] [] none nofun

/-- However long the walk is followed, if only long enough, it has visited the nodes of the traversal. -/
theorem visits_ofRoot (e : Expr α) {n : Nat} (h : 2 * e.size ≤ n) : (ofRoot e).visits n = e.nodes := by
  obtain ⟨m, hm, hpass⟩ := passes_ofRoot e
  obtain ⟨k, rfl⟩ := Nat.exists_eq_add_of_le (hm.trans h)
  rw [hpass.visits, visits_of_empty, List.append_nil, Expr.map_node_places]

end Walk

/-! ## The walk is the traversal -/

namespace Expr

variable {α : Type} {e : Expr α}

theorem postOrder_eq (e : Expr α) : e.postOrder = e.nodes := Walk.visits_ofRoot e le_rfl

/-- Equal siblings are visited one by one. -/
example (v : α) : (Expr.sum [.product [.const v, .const v], .const v]).postOrder =
    [.const v, .const v, .product [.const v, .const v], .const v, .sum [.product [.const v, .const v], .const v]] := rfl

/-- The names that occur are those of the variables that the walk visits. -/
theorem mem_freeNames_iff_postOrder {x : String} : x ∈ e.freeNames ↔ ∃ m, .var m ∈ e.postOrder ∧ m.name = x := by
  simp only [mem_freeNames_iff, postOrder_eq, mem_nodes_iff]

/-- The walk visits the nodes in the order of the recursive traversal and then is at its end, after two
    steps for each node at most. Its visits are at the places to which the paths of the tree lead, at
    each of them once. -/
theorem postOrder_recursive (e : Expr α) :
    e.postOrder = e.nodes ∧ (∀ n, 2 * e.size ≤ n → (Walk.ofRoot e).visits n = e.nodes) ∧
      ∃ n ≤ 2 * e.size, ∃ ps w, Walk.Passes n (Walk.ofRoot e) ps w ∧ w.step = none ∧ ps.map Place.node = e.nodes ∧
        (ps.map Place.path).Nodup ∧ ∀ p, p ∈ ps ↔ e.follow p.path = some p.node := by
  obtain ⟨n, hn, hpass⟩ := Walk.passes_ofRoot e
  refine ⟨postOrder_eq e, fun n => Walk.visits_ofRoot e, n, hn, e.places [], _, hpass, rfl, map_node_places [] e,
    nodup_places [] e, fun p => ?_⟩
  rw [mem_places_iff]
  simp

end Expr

end SymbolicAlgebra
