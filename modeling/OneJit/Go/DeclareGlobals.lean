import OneJit.Go.Resolver
import OneJit.Lib.Precedence

/-!
# The order of declarations

The calls of the dependency loop are a schedule of the dependencies. The loop ends with an error
exactly when an object that is not a type is on a cycle.
-/

namespace OneJit.Go

open Relation Precedence

theorem ObjectSet.mem_delete {set : ObjectSet} {obj o : Object} :
    o ∈ set.delete obj ↔ o ∈ set ∧ o ≠ obj := by
  rw [ObjectSet.delete, List.mem_filter, bne_iff_ne]

namespace Resolver

/-- An object depends on another one. -/
def Needs (r : Resolver) (a b : Object) : Prop := b ∈ r.depfwd a

/-- What holds before objects are declared: the graphs are each other's inverse, between objects of
the package block, and no object depends on itself. -/
structure Resolved (r : Resolver) : Prop where
  names : r.named.Pairwise fun a b => a.name ≠ b.name
  mirrored : ∀ a b, a ∈ r.depinv b ↔ b ∈ r.depfwd a
  within : ∀ a b, b ∈ r.depfwd a → a ∈ r.named ∧ b ∈ r.named
  irrefl : ∀ a, a ∉ r.depfwd a

/-! ## The graphs that are recorded -/

theorem ObjectGraph.mem_link {g : ObjectGraph} {a b x y : Object} :
    y ∈ g.link a b x ↔ y ∈ g x ∨ x = a ∧ y = b := by
  unfold ObjectGraph.link
  split
  · next h => simp only [List.mem_insert_iff, h, true_and, or_comm]
  · next h => simp only [h, false_and, or_false]

theorem init_resolved {named : ObjectMap} (h : named.Pairwise fun a b => a.name ≠ b.name) :
    (init named).Resolved where
  names := h
  mirrored a b := by simp [init]
  within a b hab := by simp [init] at hab
  irrefl a := by simp [init]

/-- The dependencies of objects on another one are recorded in both graphs. -/
theorem deps_resolved {r : Resolver} (h : r.Resolved) {fromlist : List Object} {tgt : Object}
    (hfrom : ∀ obj ∈ fromlist, obj ∈ r.named) (htgt : tgt ∈ r.named)
    (hself : tgt ∈ fromlist → fromlist = [tgt]) : (r.deps fromlist tgt).Resolved := by
  unfold deps
  split
  · exact h
  next hne =>
  split
  · exact h
  next hsingle =>
  have hnot : tgt ∉ fromlist := fun hmem => hsingle (hself hmem)
  clear hne hself hsingle
  induction fromlist generalizing r with
  | nil => exact h
  | cons obj fromlist ih =>
    rw [List.foldl_cons]
    rw [List.mem_cons, not_or] at hnot
    refine ih (r := { r with depfwd := r.depfwd.link obj tgt, depinv := r.depinv.link tgt obj })
      ?_ (fun o ho => hfrom o (.tail _ ho)) htgt hnot.2
    refine ⟨h.names, fun a b => ?_, fun a b hab => ?_, fun a ha => ?_⟩
    · simp only [ObjectGraph.mem_link, h.mirrored, and_comm]
    · obtain hab | ⟨rfl, rfl⟩ := ObjectGraph.mem_link.mp hab
      · exact h.within a b hab
      · exact ⟨hfrom a List.mem_cons_self, htgt⟩
    · obtain ha | ⟨rfl, heq⟩ := ObjectGraph.mem_link.mp ha
      · exact h.irrefl a ha
      · exact hnot.1 heq.symm

/-! ## The transitive dependencies -/

/-- The new dependencies are in the queue, and all satisfy the filter. -/
theorem visitDeps_spec (filter : Object → Bool) (set : ObjectSet) (deps : List Object)
    (queue : ObjectSet) :
    match visitDeps filter set deps queue with
    | none => ∃ dep ∈ deps, filter dep = false
    | some queue' =>
      (∀ x, x ∈ queue' ↔ x ∈ queue ∨ x ∈ deps ∧ x ∉ set) ∧ ∀ dep ∈ deps, filter dep = true := by
  induction deps generalizing queue with
  | nil => simp [visitDeps]
  | cons dep deps ih =>
    rw [visitDeps]
    by_cases hfilter : filter dep = true
    · rw [hfilter, Bool.not_true, if_neg Bool.false_ne_true]
      have hrest := ih (if dep ∈ set then queue else queue.insert dep)
      split at hrest
      · next hnone =>
        obtain ⟨d, hd, hfalse⟩ := hrest
        exact ⟨d, .tail _ hd, hfalse⟩
      · obtain ⟨hmem, hall⟩ := hrest
        refine ⟨fun x => ?_, List.forall_mem_cons.mpr ⟨hfilter, hall⟩⟩
        rw [hmem, List.mem_cons]
        by_cases hset : dep ∈ set
        · rw [if_pos hset]
          constructor
          · rintro (hx | hx)
            · exact .inl hx
            · exact .inr ⟨.inr hx.1, hx.2⟩
          · rintro (hx | ⟨rfl | hx, hnot⟩)
            · exact .inl hx
            · exact absurd hset hnot
            · exact .inr ⟨hx, hnot⟩
        · rw [if_neg hset, List.mem_insert_iff]
          constructor
          · rintro ((rfl | hx) | hx)
            · exact .inr ⟨.inl rfl, hset⟩
            · exact .inl hx
            · exact .inr ⟨.inr hx.1, hx.2⟩
          · rintro (hx | ⟨rfl | hx, hnot⟩)
            · exact .inl (.inr hx)
            · exact .inl (.inl rfl)
            · exact .inr ⟨hx, hnot⟩
    · rw [Bool.not_eq_true] at hfilter
      rw [hfilter, Bool.not_false, if_pos rfl]
      exact ⟨dep, List.mem_cons_self, hfilter⟩

theorem pick_spec (order : MapOrder Object) (queue : ObjectSet) :
    match pick order queue with
    | none => queue = []
    | some (obj, rest) => obj ∈ queue ∧ ∀ x, x ∈ rest ↔ x ∈ queue ∧ x ≠ obj := by
  unfold pick
  split
  · next h =>
    split at h
    · next hrange =>
      apply List.eq_nil_iff_forall_not_mem.mpr
      intro x hx
      have hmem := MapOrder.mem_range (o := order).mpr hx
      rw [hrange] at hmem
      cases hmem
    · cases h
  · next obj rest h =>
    split at h
    · cases h
    · next hd tl hrange =>
      cases h
      refine ⟨MapOrder.mem_range.mp (hrange ▸ List.mem_cons_self), fun x => ?_⟩
      exact ObjectSet.mem_delete

/-- What `getTransitiveDeps` returns for an object. -/
def TransitiveDeps (r : Resolver) (filter : Object → Bool) (start : Object) :
    Option ObjectSet → Prop
  | none => ∃ c, ReflTransGen r.Needs start c ∧ filter c = false
  | some set => set.Nodup ∧ (∀ x, x ∈ set ↔ ReflTransGen r.Needs start x) ∧
      ∀ x ∈ set, filter x = true

/-- The state of the loop of `getTransitiveDeps`: the set is what has been visited, and the queue
with the current object what is to be visited. -/
structure Visiting (r : Resolver) (filter : Object → Bool) (start : Object)
    (set queue : ObjectSet) (obj : Object) : Prop where
  nodup : set.Nodup
  fresh : ∀ x, x = obj ∨ x ∈ queue → x ∉ set
  current : obj ∉ queue
  reached : ∀ x, x ∈ set ∨ x = obj ∨ x ∈ queue → ReflTransGen r.Needs start x
  filtered : ∀ x, x ∈ set ∨ x = obj ∨ x ∈ queue → filter x = true
  closed : ∀ x ∈ set, ∀ y, r.Needs x y → y ∈ set ∨ y = obj ∨ y ∈ queue
  start : start ∈ set ∨ start = obj

/-- The loop ends when the fuel is as much as there are objects. -/
theorem transitiveDepsLoop_spec (order : MapOrder Object) {r : Resolver}
    {filter : Object → Bool} {start : Object} {u : List Object}
    (hu : ∀ x, ReflTransGen r.Needs start x → x ∈ u) {fuel : Nat} {set queue : ObjectSet}
    {obj : Object} (hfuel : u.length ≤ set.length + fuel)
    (h : Visiting r filter start set queue obj) :
    ∃ res, transitiveDepsLoop order r filter fuel set queue obj = some res ∧
      TransitiveDeps r filter start res := by
  induction fuel generalizing set queue obj with
  | zero =>
    -- the visited objects would be more than all
    have hsub : obj :: set ⊆ u := by
      intro x hx
      apply hu x
      obtain rfl | hx := List.mem_cons.mp hx
      · exact h.reached x (.inr (.inl rfl))
      · exact h.reached x (.inl hx)
    have hlen := ((List.nodup_cons.mpr ⟨h.fresh obj (.inl rfl), h.nodup⟩).subperm hsub).length_le
    rw [List.length_cons] at hlen
    omega
  | succ fuel ih =>
    have hobj := h.fresh obj (.inl rfl)
    have hinsert : ∀ x, x ∈ set.insert obj ↔ x = obj ∨ x ∈ set := fun x => List.mem_insert_iff
    have hlength : (set.insert obj).length = set.length + 1 := List.length_insert_of_not_mem hobj
    have hreach := h.reached obj (.inr (.inl rfl))
    rw [transitiveDepsLoop]
    have hvisit := visitDeps_spec filter (set.insert obj)
      ((order.part (2 * fuel)).range (r.depfwd obj)) queue
    generalize visitDeps filter (set.insert obj)
      ((order.part (2 * fuel)).range (r.depfwd obj)) queue = visited at hvisit ⊢
    cases visited with
    | none =>
      obtain ⟨dep, hdep, hfalse⟩ := hvisit
      exact ⟨none, rfl, dep, hreach.tail (MapOrder.mem_range.mp hdep), hfalse⟩
    | some queue' =>
      dsimp only at hvisit ⊢
      obtain ⟨hqueue, hfilter⟩ := hvisit
      have hneeds : ∀ x ∈ set.insert obj, ∀ y, r.Needs x y → y ∈ set.insert obj ∨ y ∈ queue' := by
        intro x hx y hxy
        rw [hinsert, hqueue, MapOrder.mem_range]
        obtain rfl | hx := (hinsert x).mp hx
        · by_cases hy : y ∈ set.insert x
          · exact .inl ((hinsert y).mp hy)
          · exact .inr (.inr ⟨hxy, hy⟩)
        · obtain hy | rfl | hy := h.closed x hx y hxy
          · exact .inl (.inr hy)
          · exact .inl (.inl rfl)
          · exact .inr (.inl hy)
      have hfresh : ∀ x ∈ queue', x ∉ set.insert obj := by
        intro x hx
        obtain hx | hx := (hqueue x).mp hx
        · rw [hinsert, not_or]
          refine ⟨?_, h.fresh x (.inr hx)⟩
          rintro rfl
          exact h.current hx
        · exact hx.2
      have hboth : ∀ x, x ∈ set.insert obj ∨ x ∈ queue' →
          ReflTransGen r.Needs start x ∧ filter x = true := by
        intro x hx
        rw [hinsert, hqueue, MapOrder.mem_range] at hx
        obtain (rfl | hx) | hx | ⟨hx, -⟩ := hx
        · exact ⟨hreach, h.filtered x (.inr (.inl rfl))⟩
        · exact ⟨h.reached x (.inl hx), h.filtered x (.inl hx)⟩
        · exact ⟨h.reached x (.inr (.inr hx)), h.filtered x (.inr (.inr hx))⟩
        · exact ⟨hreach.tail hx, hfilter x (MapOrder.mem_range.mpr hx)⟩
      have hstart : start ∈ set.insert obj := (hinsert start).mpr h.start.symm
      have hpick := pick_spec (order.part (2 * fuel + 1)) queue'
      generalize pick (order.part (2 * fuel + 1)) queue' = picked at hpick ⊢
      cases picked with
      | none =>
        subst hpick
        refine ⟨some _, rfl, h.nodup.insert, fun x => ?_, fun x hx => (hboth x (.inl hx)).2⟩
        refine ⟨fun hx => (hboth x (.inl hx)).1, fun hx => ?_⟩
        induction hx with
        | refl => exact hstart
        | tail _ hbc ihx =>
          obtain hc | hc := hneeds _ (ihx) _ hbc
          · exact hc
          · cases hc
      | some picked =>
        obtain ⟨next, rest⟩ := picked
        dsimp only at hpick ⊢
        obtain ⟨hmem, hrest⟩ := hpick
        have hfuel' : u.length ≤ (set.insert obj).length + fuel := by
          rw [hlength]
          omega
        have hqueued : ∀ x, x = next ∨ x ∈ rest → x ∈ queue' := by
          rintro x (rfl | hx)
          · exact hmem
          · exact ((hrest x).mp hx).1
        have hsplit : ∀ x ∈ queue', x = next ∨ x ∈ rest := by
          intro x hx
          by_cases heq : x = next
          · exact .inl heq
          · exact .inr ((hrest x).mpr ⟨hx, heq⟩)
        refine ih hfuel' ⟨h.nodup.insert, fun x hx => hfresh x (hqueued x hx), ?_, ?_, ?_, ?_, .inl hstart⟩
        · exact fun hnext => ((hrest next).mp hnext).2 rfl
        · exact fun x hx => (hboth x (hx.imp_right (hqueued x))).1
        · exact fun x hx => (hboth x (hx.imp_right (hqueued x))).2
        · exact fun x hx y hxy => (hneeds x hx y hxy).imp_right (hsplit y)

theorem getTransitiveDeps_spec (order : MapOrder Object) {r : Resolver}
    (filter : Object → Bool) {start : Object} {u : List Object}
    (hu : ∀ x, ReflTransGen r.Needs start x → x ∈ u) {fuel : Nat} (hfuel : u.length ≤ fuel) :
    ∃ res, r.getTransitiveDeps order fuel start filter = some res ∧
      TransitiveDeps r filter start res := by
  unfold getTransitiveDeps
  by_cases hstart : filter start = true
  · rw [hstart, Bool.not_true, if_neg Bool.false_ne_true]
    refine transitiveDepsLoop_spec order hu (by simpa using hfuel) ?_
    constructor
    · exact List.nodup_nil
    · intro x _ hx
      cases hx
    · simp
    · rintro x (hx | rfl | hx)
      · cases hx
      · exact .refl
      · cases hx
    · rintro x (hx | rfl | hx)
      · cases hx
      · exact hstart
      · cases hx
    · intro x hx
      cases hx
    · exact .inr rfl
  · rw [Bool.not_eq_true] at hstart
    rw [hstart, Bool.not_false, if_pos rfl]
    exact ⟨none, rfl, start, .refl, hstart⟩

/-- A set is found when some object's transitive dependencies all satisfy the filter. -/
theorem findObjCycle_spec (order : MapOrder Object) {r : Resolver} (filter : Object → Bool)
    {u : List Object} (hu : ∀ a ∈ u, ∀ b, r.Needs a b → b ∈ u) {fuel : Nat}
    (hfuel : u.length ≤ fuel) {objs : List Object} (hobjs : ∀ obj ∈ objs, obj ∈ u) :
    ∃ res, r.findObjCycle order fuel filter objs = some res ∧
      match res with
      | none => ∀ obj ∈ objs, TransitiveDeps r filter obj none
      | some set => ∃ obj ∈ objs, TransitiveDeps r filter obj (some set) := by
  induction objs with
  | nil => exact ⟨none, rfl, fun obj hobj => by cases hobj⟩
  | cons obj objs ih =>
    rw [List.forall_mem_cons] at hobjs
    have hreach : ∀ x, ReflTransGen r.Needs obj x → x ∈ u := by
      intro x hx
      induction hx with
      | refl => exact hobjs.1
      | tail _ hbc ihx => exact hu _ ihx _ hbc
    obtain ⟨res, hres, hspec⟩ :=
      getTransitiveDeps_spec (order.part objs.length) filter hreach hfuel
    rw [findObjCycle, hres]
    cases res with
    | some set => exact ⟨some set, rfl, obj, List.mem_cons_self, hspec⟩
    | none =>
      obtain ⟨res, hrest, hspec'⟩ := ih hobjs.2
      refine ⟨res, hrest, ?_⟩
      cases res with
      | none => exact List.forall_mem_cons.mpr ⟨hspec, hspec'⟩
      | some set =>
        obtain ⟨o, ho, hset⟩ := hspec'
        exact ⟨o, .tail _ ho, hset⟩

/-! ## What is removed -/

/-- A set of objects is taken out of the graphs. -/
structure Removes (r r' : Resolver) (set : List Object) : Prop where
  named : r'.named = r.named
  calls : r'.calls = r.calls
  errs : r'.errs = r.errs
  depfwd : ∀ a b, b ∈ r'.depfwd a ↔ b ∈ r.depfwd a ∧ b ∉ set
  mirrored : ∀ a b, a ∈ r'.depinv b ↔ b ∈ r'.depfwd a

theorem foldl_delete (obj : Object) (fwds : List Object) (depfwd : ObjectGraph) (a b : Object) :
    b ∈ fwds.foldl (fun depfwd fwd =>
        fun o => if o = fwd then ObjectSet.delete (depfwd o) obj else depfwd o) depfwd a ↔
      b ∈ depfwd a ∧ ¬(a ∈ fwds ∧ b = obj) := by
  induction fwds generalizing depfwd with
  | nil => simp
  | cons fwd fwds ih =>
    rw [List.foldl_cons, ih, List.mem_cons]
    by_cases heq : a = fwd
    · rw [if_pos heq, ObjectSet.mem_delete]
      tauto
    · rw [if_neg heq]
      tauto

theorem removeDeps_removes (order : MapOrder Object) {r : Resolver}
    (h : ∀ a b, a ∈ r.depinv b ↔ b ∈ r.depfwd a) (obj : Object) :
    Removes r (r.removeDeps order obj) [obj] := by
  have hdep : ∀ a b, b ∈ (r.removeDeps order obj).depfwd a ↔ b ∈ r.depfwd a ∧ b ∉ [obj] := by
    intro a b
    unfold removeDeps
    dsimp only
    rw [foldl_delete, MapOrder.mem_range, h, List.mem_singleton]
    refine and_congr_right fun hb => not_congr ⟨fun hand => hand.2, ?_⟩
    rintro rfl
    exact ⟨hb, rfl⟩
  refine ⟨rfl, rfl, rfl, hdep, fun a b => ?_⟩
  rw [hdep, List.mem_singleton]
  change a ∈ (if b = obj then [] else r.depinv b) ↔ _
  split
  · next heq => simp [heq]
  · next hne => simp [hne, h]

theorem removeDepsSet_removes (order : MapOrder Object) {r : Resolver}
    (h : ∀ a b, a ∈ r.depinv b ↔ b ∈ r.depfwd a) (objs : List Object) :
    Removes r (r.removeDepsSet order objs) objs := by
  induction objs generalizing r with
  | nil => exact ⟨rfl, rfl, rfl, fun a b => by simp [removeDepsSet], h⟩
  | cons obj objs ih =>
    have hfirst := removeDeps_removes (order.part objs.length) h obj
    have hrest := ih hfirst.mirrored
    rw [removeDepsSet]
    refine ⟨hrest.named.trans hfirst.named, hrest.calls.trans hfirst.calls,
      hrest.errs.trans hfirst.errs, fun a b => ?_, hrest.mirrored⟩
    rw [hrest.depfwd, hfirst.depfwd, List.mem_singleton, List.mem_cons, not_or, and_assoc]

/-! ## The loop -/

/-- The objects that the calls declare, call by call. -/
def groups (calls : List DeclareCall) : List (List Object) := calls.map (·.objs)

/-- The state of the loop: the objects that are left are those that no call has declared, the graph
is that of the start between them, and the calls are a schedule. -/
structure Pending (r₀ : Resolver) (m : ObjectMap) (r : Resolver) (calls : List DeclareCall) :
    Prop where
  calls_eq : r.calls = r₀.calls ++ calls
  errs : r.errs = r₀.errs
  left : ∀ a, a ∈ m ↔ a ∈ r₀.named ∧ a ∉ (groups calls).flatten
  declared : ∀ a ∈ (groups calls).flatten, a ∈ r₀.named
  depfwd : ∀ a b, b ∈ r.depfwd a ↔ b ∈ r₀.depfwd a ∧ b ∈ m
  mirrored : ∀ a b, a ∈ r.depinv b ↔ b ∈ r.depfwd a
  schedule : Schedule r₀.Needs (groups calls)
  types : ∀ set, DeclareCall.declareObjTypeCycle set ∈ calls → ∀ a ∈ set, a.isTypeObj = true
  acyclic : ∀ a ∈ (groups calls).flatten, a.isTypeObj = false → ¬OnCycle r₀.Needs a

theorem pending_start {r : Resolver} (h : r.Resolved) : Pending r r.named r [] where
  calls_eq := (List.append_nil _).symm
  errs := rfl
  left a := by simp [groups]
  declared a ha := by simp [groups] at ha
  depfwd a b := by
    rw [iff_self_and]
    exact fun hb => (h.within a b hb).2
  mirrored := h.mirrored
  schedule := .nil
  types set hset := by cases hset
  acyclic a ha := by simp [groups] at ha

/-- Objects of the block of which all dependencies are declared or among them are declared next. -/
theorem Pending.next {r₀ : Resolver} {m : ObjectMap} {r : Resolver} {calls : List DeclareCall}
    (h : Pending r₀ m r calls) {call : DeclareCall} {m' : ObjectMap} {r' : Resolver}
    (hcalls : r'.calls = r.calls ++ [call]) (herrs : r'.errs = r.errs)
    (hm : ∀ a, a ∈ m' ↔ a ∈ m ∧ a ∉ call.objs)
    (hdep : ∀ a b, b ∈ r'.depfwd a ↔ b ∈ r.depfwd a ∧ b ∉ call.objs)
    (hmirrored : ∀ a b, a ∈ r'.depinv b ↔ b ∈ r'.depfwd a)
    (hnodup : call.objs.Nodup) (hleft : ∀ a ∈ call.objs, a ∈ m)
    (hneeds : ∀ a ∈ call.objs, ∀ b, b ∈ r.depfwd a → b ∈ call.objs)
    (hwithin : ∀ a b, b ∈ r₀.depfwd a → b ∈ r₀.named)
    (htypes : ∀ set, call = .declareObjTypeCycle set → ∀ a ∈ set, a.isTypeObj = true)
    (hsingle : ∀ a ∈ call.objs, a.isTypeObj = false → ∀ b, b ∉ r.depfwd a) :
    Pending r₀ m' r' (calls ++ [call]) := by
  have hgroups : groups (calls ++ [call]) = groups calls ++ [call.objs] := by
    simp [groups]
  have hflat : ∀ a, a ∈ (groups (calls ++ [call])).flatten ↔
      a ∈ (groups calls).flatten ∨ a ∈ call.objs := by
    intro a
    rw [hgroups, List.flatten_append, List.mem_append, List.flatten_singleton]
  have hnew : ∀ a ∈ call.objs, a ∉ (groups calls).flatten :=
    fun a ha => ((h.left a).mp (hleft a ha)).2
  have hdone : ∀ a b, b ∈ r₀.depfwd a → b ∉ r.depfwd a → b ∈ (groups calls).flatten := by
    intro a b hb hnot
    by_contra hdecl
    exact hnot ((h.depfwd a b).mpr ⟨hb, (h.left b).mpr ⟨hwithin a b hb, hdecl⟩⟩)
  constructor
  · rw [hcalls, h.calls_eq, List.append_assoc]
  · rw [herrs, h.errs]
  · intro a
    rw [hm, h.left, hflat, not_or, and_assoc]
  · intro a ha
    obtain ha | ha := (hflat a).mp ha
    · exact h.declared a ha
    · exact ((h.left a).mp (hleft a ha)).1
  · intro a b
    rw [hdep, h.depfwd, hm, and_assoc]
  · exact hmirrored
  · rw [hgroups]
    refine h.schedule.snoc hnodup hnew fun a ha b hab => ?_
    by_cases hb : b ∈ r.depfwd a
    · exact .inr (hneeds a ha b hb)
    · exact .inl (hdone a b hab hb)
  · intro set hset
    obtain hset | hset := List.mem_append.mp hset
    · exact h.types set hset
    · exact htypes set (List.mem_singleton.mp hset).symm
  · intro a ha hfalse
    obtain ha | ha := (hflat a).mp ha
    · exact h.acyclic a ha hfalse
    · exact h.schedule.not_onCycle (fun b hab => hdone a b hab (hsingle a ha hfalse b)) (hnew a ha)

/-- What `declareGlobals` has done at its end. -/
structure Declares (r₀ r' : Resolver) (calls : List DeclareCall) : Prop where
  calls_eq : r'.calls = r₀.calls ++ calls
  declared : ∀ a ∈ (groups calls).flatten, a ∈ r₀.named
  schedule : Schedule r₀.Needs (groups calls)
  types : ∀ set, DeclareCall.declareObjTypeCycle set ∈ calls → ∀ a ∈ set, a.isTypeObj = true
  outcome :
    (r'.errs = r₀.errs ++ ["invalid recursive declaration"] ∧
      ∃ a ∈ r₀.named, a.isTypeObj = false ∧ OnCycle r₀.Needs a) ∨
    (r'.errs = r₀.errs ∧ (∀ a ∈ r₀.named, a.isTypeObj = false → ¬OnCycle r₀.Needs a) ∧
      ∀ a ∈ r₀.named, a ∈ (groups calls).flatten)

/-- The loop ends with nothing left. -/
theorem Pending.declares_nil {r₀ r : Resolver} {calls : List DeclareCall}
    (h : Pending r₀ [] r calls) : Declares r₀ r calls where
  calls_eq := h.calls_eq
  declared := h.declared
  schedule := h.schedule
  types := h.types
  outcome := by
    have hall : ∀ a ∈ r₀.named, a ∈ (groups calls).flatten := by
      intro a ha
      by_contra hnot
      cases (h.left a).mpr ⟨ha, hnot⟩
    exact .inr ⟨h.errs, fun a ha => h.acyclic a (hall a ha), hall⟩

/-- The loop ends where every object that is left has a dependency, and depends on one that is not a
type. -/
theorem Pending.declares_error {r₀ : Resolver} {m : ObjectMap} {r : Resolver}
    {calls : List DeclareCall} (h : Pending r₀ m r calls) (h₀ : r₀.Resolved) (hm : m ≠ [])
    (hdeps : ∀ a ∈ m, ∃ b, r.Needs a b)
    (hreach : ∀ a ∈ m, TransitiveDeps r Object.isTypeObj a none) :
    Declares r₀ (r.error "invalid recursive declaration") calls where
  calls_eq := h.calls_eq
  declared := h.declared
  schedule := h.schedule
  types := h.types
  outcome := by
    have hclosed : ∀ a ∈ m, ∀ b, r.Needs a b → b ∈ m := fun a _ b hab => ((h.depfwd a b).mp hab).2
    have hirrefl : ∀ a, ¬r.Needs a a := fun a haa => h₀.irrefl a ((h.depfwd a a).mp haa).1
    obtain ⟨a, ha, hfalse, hcycle⟩ := exists_onCycle hm hclosed hirrefl hdeps hreach
    refine .inl ⟨congrArg (· ++ _) h.errs, a, ((h.left a).mp ha).1, hfalse, ?_⟩
    exact hcycle.mono fun a b hab => ((h.depfwd a b).mp hab).1

/-- The loop ends when the fuel is as much as there are objects left. -/
theorem declareLoop_spec (order : MapOrder Object) {r₀ : Resolver} (h₀ : r₀.Resolved) {fuel : Nat}
    {m : ObjectMap} (hm : m.Sublist r₀.named) {r : Resolver} {calls : List DeclareCall}
    (h : Pending r₀ m r calls) (hfuel : m.length ≤ fuel) :
    ∃ r' calls', declareLoop order fuel m r = some r' ∧ Declares r₀ r' calls' := by
  induction fuel generalizing m r calls with
  | zero =>
    obtain rfl := List.eq_nil_of_length_eq_zero (Nat.le_zero.mp hfuel)
    exact ⟨r, calls, rfl, h.declares_nil⟩
  | succ fuel ih =>
    rw [declareLoop]
    by_cases hempty : m = []
    · subst hempty
      exact ⟨r, calls, rfl, h.declares_nil⟩
    rw [if_neg (by simpa using hempty)]
    have hnames := h₀.names.sublist hm
    have hclosed : ∀ a ∈ m, ∀ b, r.Needs a b → b ∈ m := fun a _ b hab => ((h.depfwd a b).mp hab).2
    have hwithin : ∀ a b, b ∈ r₀.depfwd a → b ∈ r₀.named := fun a b hb => (h₀.within a b hb).2
    dsimp only
    cases hpick : r.pickObjectWithoutDeps ((order.part fuel).part 0) m with
    | some obj =>
      have hobj : obj ∈ m := MapOrder.mem_range.mp (List.mem_of_find?_eq_some hpick)
      have hnone : ∀ b, b ∉ r.depfwd obj := by
        have hisempty := List.find?_some hpick
        rw [List.isEmpty_iff] at hisempty
        simp [hisempty]
      have hremoves := removeDeps_removes ((order.part fuel).part 1)
        (r := r.declareObj obj) h.mirrored obj
      have hset : ∀ o ∈ [obj], o ∈ m := by simpa using hobj
      refine ih (m := m.deleteSet [obj]) ((m.deleteSet_sublist [obj]).trans hm)
        (h.next hremoves.calls hremoves.errs
          (fun a => ObjectMap.mem_deleteSet_of_names hnames hset) hremoves.depfwd
          hremoves.mirrored (List.nodup_singleton obj) hset ?_ hwithin ?_ ?_) ?_
      · intro a ha b hb
        rw [List.mem_singleton.mp ha] at hb
        exact absurd hb (hnone b)
      · intro set hcall
        cases hcall
      · intro a ha _
        rw [List.mem_singleton.mp ha]
        exact hnone
      · have hlt := ObjectMap.length_deleteSet_lt hobj (List.mem_singleton.mpr rfl)
        omega
    | none =>
      have hdeps : ∀ a ∈ m, ∃ b, r.Needs a b := by
        intro a ha
        have hsome := List.find?_eq_none.mp hpick a (MapOrder.mem_range.mpr ha)
        rw [List.isEmpty_iff] at hsome
        exact List.exists_mem_of_ne_nil _ hsome
      obtain ⟨res, hres, hspec⟩ := findObjCycle_spec ((order.part fuel).part 2) Object.isTypeObj
        hclosed hfuel
        fun obj hobj => MapOrder.mem_range.mp hobj
      rw [hres]
      cases res with
      | none =>
        exact ⟨_, calls, rfl, h.declares_error h₀ hempty hdeps
          fun a ha => hspec a (MapOrder.mem_range.mpr ha)⟩
      | some set =>
        obtain ⟨obj, hobj, hnodup, hmem, htypes⟩ := hspec
        rw [MapOrder.mem_range] at hobj
        have hobjset : obj ∈ set := (hmem obj).mpr .refl
        have hset : ∀ o ∈ set, o ∈ m := by
          intro o ho
          have hreach := (hmem o).mp ho
          clear ho
          induction hreach with
          | refl => exact hobj
          | tail _ hbc ihr => exact hclosed _ ihr _ hbc
        have hremoves := removeDepsSet_removes ((order.part fuel).part 4)
          (r := r.declareObjTypeCycle set) h.mirrored (((order.part fuel).part 5).range set)
        have hrange : ∀ n o, o ∈ ((order.part fuel).part n).range set ↔ o ∈ set :=
          fun n o => MapOrder.mem_range
        refine ih ((m.deleteSet_sublist _).trans hm)
          (h.next hremoves.calls hremoves.errs (fun a => ?_)
            (fun a b => ?_) hremoves.mirrored hnodup hset ?_ hwithin ?_ ?_) ?_
        · rw [ObjectMap.mem_deleteSet_of_names hnames fun o ho => hset o ((hrange 6 o).mp ho),
            hrange]
          rfl
        · rw [hremoves.depfwd, hrange]
          rfl
        · intro a ha b hb
          exact (hmem b).mpr (((hmem a).mp ha).tail hb)
        · intro set' hcall
          cases hcall
          exact htypes
        · intro a ha hfalse
          rw [htypes a ha] at hfalse
          cases hfalse
        · have hlt := ObjectMap.length_deleteSet_lt hobj ((hrange 6 obj).mpr hobjset)
          omega

/-- Whatever the order in which the maps are iterated, the loop ends, its calls are a schedule of
the dependencies, and its outcome is told by the objects on cycles. -/
theorem declareGlobals_declares (order : MapOrder Object) (r : Resolver) (h : r.Resolved)
    (fuel : Nat) (hfuel : r.named.length ≤ fuel) :
    ∃ r' calls, r.declareGlobals order fuel = some r' ∧ Declares r r' calls :=
  declareLoop_spec order h (.refl _) (pending_start h) hfuel

/-- Two types that depend on each other, and a function that depends on one of them. -/
def listResolver : Resolver :=
  let list : Object := ⟨"List", .typeObj⟩
  let node : Object := ⟨"Node", .typeObj⟩
  let push : Object := ⟨"Push", .funcObj⟩
  (((init [push, list, node]).deps [list] node).deps [node] list).deps [push] list

theorem listResolver_resolved : listResolver.Resolved := by
  refine deps_resolved (deps_resolved (deps_resolved (init_resolved ?_) ?_ ?_ ?_) ?_ ?_ ?_) ?_ ?_ ?_
  all_goals decide

theorem listResolver_declares : ∃ r' calls,
    listResolver.declareGlobals .listed 3 = some r' ∧ Declares listResolver r' calls :=
  declareGlobals_declares .listed listResolver listResolver_resolved 3 (by decide)

example : (listResolver.declareGlobals .listed 3).map (·.calls) = some
    [.declareObjTypeCycle [⟨"Node", .typeObj⟩, ⟨"List", .typeObj⟩],
      .declareObj ⟨"Push", .funcObj⟩] := by decide

end Resolver

end OneJit.Go
