import MetricLayer.Proofs.Registry.Building
import MetricLayer.Proofs.Registry.IncludeCycles
import MetricLayer.Registry.Builder

/-!
# Names, places and nodes

A builder's map of names gives the place of each entity (`NameMap.PlacesOf`). One call keeps it so
and does what `Registry.register` does, a failing call leaves the builder as it is
(`Holds.attempt`), so every run of calls ends where the registry's does (`Holds.run`). The snapshot
that is then built has one node for each entity, at the entity's place, and the edges of the include
graph, so it answers every question as the registry does (`Holds.answersAs_build`). What is known of
a run of the registry is then known of the builder's (`Registry.registered_of_run`).
-/

namespace MetricLayer

open Schema

/-! ## Places -/

theorem getElem?_concat_eq_some_iff {α : Type} {xs : List α} {x y : α} {place : Nat} :
    (xs ++ [x])[place]? = some y ↔ xs[place]? = some y ∨ place = xs.length ∧ x = y := by
  rw [List.getElem?_append]
  split_ifs with hplace
  · simp [hplace.ne]
  · rw [List.getElem?_singleton, List.getElem?_eq_none (Nat.le_of_not_lt hplace)]
    split_ifs with hlast
    · simp [show place = xs.length by omega]
    · simp [show place ≠ xs.length by omega]

namespace NameMap

/-- The map gives the place of each of some names in a row, and knows no others. -/
def PlacesOf (m : NameMap Nat) (names : List String) : Prop :=
  ∀ name place, m.get? name = some place ↔ names[place]? = some name

variable {m : NameMap Nat} {names : List String} {name : String}

theorem placesOf_empty : PlacesOf {} [] := by simp [PlacesOf]

theorem PlacesOf.insert (h : m.PlacesOf names) (hnew : name ∉ names) :
    (m.insert name names.length).PlacesOf (names ++ [name]) := by
  intro other place
  have hfresh : names[place]? ≠ some name := fun hfound => hnew (List.mem_of_getElem? hfound)
  rw [get?_insert, getElem?_concat_eq_some_iff, ← h other place]
  by_cases hother : other = name
  · subst hother
    have hnone : m.get? other ≠ some place := by rwa [Ne, h other place]
    simp [hnone, eq_comm]
  · simp [hother, Ne.symm hother]

theorem PlacesOf.nodup (h : m.PlacesOf names) : names.Nodup := by
  rw [List.nodup_iff_getElem?_ne_getElem?]
  intro i j hij hj heq
  have hi : names[i]? = some names[j] := heq.trans (List.getElem?_eq_getElem hj)
  have hplaces : some i = some j :=
    ((h _ i).2 hi).symm.trans ((h _ j).2 (List.getElem?_eq_getElem hj))
  exact hij.ne (Option.some.inj hplaces)

theorem PlacesOf.get?_eq_idxOf? (h : m.PlacesOf names) (name : String) :
    m.get? name = names.idxOf? name := by
  refine Option.ext fun place => ?_
  rw [h name place, List.idxOf?_eq_some_iff, List.getElem?_eq_some_iff]
  refine exists_congr fun hplace => (and_iff_left_of_imp fun hname j hj hother => ?_).symm
  exact hj.ne (h.nodup.getElem_inj_iff.1 (hother.trans hname.symm))

theorem PlacesOf.get?_of_mem (h : m.PlacesOf names) (hname : name ∈ names) :
    m.get? name = some (names.idxOf name) := by
  rw [h name, List.getElem?_idxOf hname]

theorem PlacesOf.contains_iff (h : m.PlacesOf names) : m.contains name = true ↔ name ∈ names := by
  rw [contains, h.get?_eq_idxOf?, List.isSome_idxOf?]

end NameMap

/-! ## One call and then many -/

namespace RegistryBuilder

variable {b : RegistryBuilder} {r : Registry}

theorem run_register (b : RegistryBuilder) (e : Entity) :
    (register e).run b =
      if b.index.contains e.name then .error (.duplicateEntity e.name) b
      else
        match firstRepeat? [] e.memberNames with
        | some name => .error (.duplicateField e.name name) b
        | none =>
          .ok ()
            { entities := b.entities ++ [e.withInclusions]
              index := b.index.insert e.name b.entities.length } := by
  unfold register
  simp only [EStateM.run_bind, EStateM.run_get]
  cases b.index.contains e.name with
  | true => rfl
  | false => cases firstRepeat? [] e.memberNames <;> rfl

/-- The entities of a builder are those of a registry, and its map gives their places. -/
structure Holds (b : RegistryBuilder) (r : Registry) : Prop where
  entities : b.entities = r.entities
  index : b.index.PlacesOf r.names

theorem holds_empty : Holds {} Registry.empty := ⟨rfl, NameMap.placesOf_empty⟩

/-- A call fails where it fails on the registry, with the same fault and the builder as before. -/
theorem Holds.run_register (h : b.Holds r) (e : Entity) :
    (∃ b' r', (register e).run b = .ok () b' ∧ r.register e = .ok r' ∧ b'.Holds r') ∨
      ∃ f, (register e).run b = .error f b ∧ r.register e = .error f := by
  rw [RegistryBuilder.run_register]
  cases hcall : r.register e with
  | ok r' =>
    obtain ⟨hname, hmembers, hentities⟩ := Registry.register_ok hcall
    have hfree : ¬b.index.contains e.name = true := mt h.index.contains_iff.1 hname
    rw [if_neg hfree, Registry.firstRepeat?_eq_none_of_nodup hmembers (by simp)]
    refine Or.inl ⟨_, r', rfl, rfl, ?_, ?_⟩
    · rw [hentities, h.entities]
    · have hlength : b.entities.length = r.names.length := by simp [h.entities, Registry.names]
      rw [Registry.names_register hcall, hlength]
      exact h.index.insert hname
  | error f =>
    refine Or.inr ⟨f, ?_, rfl⟩
    cases Registry.register_error_iff.1 hcall with
    | entity htaken => rw [if_pos (h.index.contains_iff.2 htaken)]
    | field hnew hrepeat =>
      rw [if_neg (mt h.index.contains_iff.1 hnew), firstRepeat?_nil_eq_some_iff.2 hrepeat]

/-- The builder after a call, whatever comes of it, and the fault of a call that fails. -/
def attempt (b : RegistryBuilder) (e : Entity) : RegistryBuilder × Option Fault :=
  match (register e).run b with
  | .ok _ b => (b, none)
  | .error f b => (b, some f)

/-- The builder after calls in order, some of which may fail. -/
def run (b : RegistryBuilder) (calls : List Entity) : RegistryBuilder :=
  calls.foldl (fun b e => (b.attempt e).1) b

theorem Holds.attempt (h : b.Holds r) (e : Entity) :
    (b.attempt e).1.Holds (r.attempt e).1 ∧ (b.attempt e).2 = (r.attempt e).2 ∧
      ((b.attempt e).2 ≠ none → (b.attempt e).1 = b) := by
  unfold RegistryBuilder.attempt
  obtain ⟨b', r', hrun, hcall, hholds⟩ | ⟨f, hrun, hcall⟩ := h.run_register e
  · rw [hrun, Registry.attempt_of_ok hcall]
    exact ⟨hholds, rfl, fun hfails => absurd rfl hfails⟩
  · rw [hrun, Registry.attempt_of_error hcall]
    exact ⟨h, rfl, fun _ => rfl⟩

theorem Holds.run (h : b.Holds r) (calls : List Entity) : (b.run calls).Holds (r.run calls) := by
  induction calls generalizing b r with
  | nil => exact h
  | cons e calls ih => exact ih (h.attempt e).1

theorem Holds.run_forM (h : b.Holds r) (es : List Entity) :
    (∃ b' r', (es.forM register).run b = .ok () b' ∧ r.registerAll es = .ok r' ∧ b'.Holds r') ∨
      ∃ f b', (es.forM register).run b = .error f b' ∧ r.registerAll es = .error f := by
  induction es generalizing b r with
  | nil => exact Or.inl ⟨b, r, rfl, rfl, h⟩
  | cons e es ih =>
    have hstep : (e :: es).forM register = (do register e; es.forM register) := rfl
    rw [hstep, EStateM.run_bind, Registry.registerAll]
    obtain ⟨b', r', hrun, hcall, hholds⟩ | ⟨f, hrun, hcall⟩ := h.run_register e
    · rw [hrun, hcall]
      exact ih hholds
    · rw [hrun, hcall]
      exact Or.inr ⟨f, b, rfl, rfl⟩

end RegistryBuilder

/-! ## Nodes and edges -/

namespace GrowingGraph

variable {g : GrowingGraph} {source target node : Nat}

theorem mem_neighbors_iff : target ∈ g.neighbors source ↔ (source, target) ∈ g.edges := by
  simp [neighbors]

theorem updateEdge_of_mem (h : target ∈ g.neighbors source) : g.updateEdge source target = g :=
  if_pos (mem_neighbors_iff.1 h)

theorem neighbors_updateEdge_of_not_mem (h : target ∉ g.neighbors source) :
    (g.updateEdge source target).neighbors source = target :: g.neighbors source := by
  rw [updateEdge, if_neg (mt mem_neighbors_iff.2 h)]
  simp [neighbors]

theorem neighbors_updateEdge_of_ne (h : node ≠ source) :
    (g.updateEdge source target).neighbors node = g.neighbors node := by
  rw [updateEdge]
  split_ifs
  · rfl
  · simp [neighbors, h.symm]

theorem labels_updateEdge : (g.updateEdge source target).labels = g.labels := by
  rw [updateEdge]
  split_ifs <;> rfl

end GrowingGraph

namespace RegistryBuilder

variable {g : GrowingGraph} {nodes : NameMap Nat} {names : List String} {es : List Entity}
  {rels : List Relationship} {source : String} {node : Nat} {e : Entity}

theorem foldl_addNode (h : nodes.PlacesOf g.labels)
    (hnames : (g.labels ++ es.map Entity.name).Nodup) :
    (es.foldl addNode (g, nodes)).1.labels = g.labels ++ es.map Entity.name ∧
      (es.foldl addNode (g, nodes)).1.edges = g.edges ∧
      (es.foldl addNode (g, nodes)).2.PlacesOf (es.foldl addNode (g, nodes)).1.labels := by
  induction es generalizing g nodes with
  | nil => simpa using h
  | cons e es ih =>
    have hnew : e.name ∉ g.labels := fun hmem =>
      (List.nodup_append.1 hnames).2.2 _ hmem _ (by simp) rfl
    have hrest := ih (g := { g with labels := g.labels ++ [e.name] }) (h.insert hnew)
      (by simpa using hnames)
    rwa [List.append_assoc] at hrest

/-- The targets of inclusions that are among some names, each once. -/
def targetsAmong (names : List String) (rels : List Relationship) : List String :=
  (((rels.filter fun rel => rel.kind = .inclusion).map Relationship.target).filter
    (· ∈ names)).eraseDups

theorem targetsAmong_concat_of_not {rel : Relationship}
    (h : ¬(rel.kind = .inclusion ∧ rel.target ∈ names)) :
    targetsAmong names (rels ++ [rel]) = targetsAmong names rels := by
  unfold targetsAmong
  by_cases hkind : rel.kind = .inclusion
  · have htarget : rel.target ∉ names := fun hmem => h ⟨hkind, hmem⟩
    simp [hkind, htarget]
  · simp [hkind]

theorem targetsAmong_concat {rel : Relationship} (hkind : rel.kind = .inclusion)
    (htarget : rel.target ∈ names) :
    targetsAmong names (rels ++ [rel]) =
      if rel.target ∈ targetsAmong names rels then targetsAmong names rels
      else targetsAmong names rels ++ [rel.target] := by
  unfold targetsAmong
  rw [List.filter_append, List.map_append, List.filter_append, List.eraseDups_append]
  simp only [List.mem_eraseDups]
  split_ifs with hmem
  · simp [hkind, htarget, List.removeAll, hmem]
  · simp [hkind, htarget, List.removeAll, hmem, List.eraseDups_cons]

theorem addEdge_of_not (hnodes : nodes.PlacesOf names) {rel : Relationship}
    (h : ¬(rel.kind = .inclusion ∧ rel.target ∈ names)) : addEdge nodes source g rel = g := by
  unfold addEdge
  split_ifs with hkind
  · have hnone : nodes.get? rel.target = none := by
      rw [hnodes.get?_eq_idxOf?, List.idxOf?_eq_none_iff]
      exact fun hmem => h ⟨hkind, hmem⟩
    rw [hnone]
    cases nodes.get? source <;> rfl
  · rfl

theorem addEdge_of_inclusion (hnodes : nodes.PlacesOf names) (hsource : source ∈ names)
    {rel : Relationship} (hkind : rel.kind = .inclusion) (htarget : rel.target ∈ names) :
    addEdge nodes source g rel = g.updateEdge (names.idxOf source) (names.idxOf rel.target) := by
  rw [addEdge, if_pos hkind, hnodes.get?_of_mem hsource, hnodes.get?_of_mem htarget]

theorem mem_map_idxOf_iff {name : String} (hname : name ∈ names) (targets : List String) :
    names.idxOf name ∈ targets.map (names.idxOf ·) ↔ name ∈ targets := by
  rw [List.mem_map]
  constructor
  · rintro ⟨other, hother, hplace⟩
    rwa [(List.idxOf_inj hname).1 hplace.symm]
  · exact fun h => ⟨name, h, rfl⟩

theorem neighbors_foldl_addEdge (hnodes : nodes.PlacesOf names) (hsource : source ∈ names)
    (hnone : g.neighbors (names.idxOf source) = []) (rels : List Relationship) :
    (rels.foldl (addEdge nodes source) g).neighbors (names.idxOf source) =
      ((targetsAmong names rels).map (names.idxOf ·)).reverse := by
  induction rels using List.reverseRecOn with
  | nil => simpa [targetsAmong] using hnone
  | append_singleton rels rel ih =>
    rw [List.foldl_concat]
    by_cases hincludes : rel.kind = .inclusion ∧ rel.target ∈ names
    · obtain ⟨hkind, htarget⟩ := hincludes
      have hknown := mem_map_idxOf_iff htarget (targetsAmong names rels)
      rw [addEdge_of_inclusion hnodes hsource hkind htarget, targetsAmong_concat hkind htarget]
      split_ifs with hmem
      · rw [GrowingGraph.updateEdge_of_mem, ih]
        rwa [ih, List.mem_reverse, hknown]
      · rw [GrowingGraph.neighbors_updateEdge_of_not_mem, ih, List.map_append, List.reverse_append]
        · rfl
        · rwa [ih, List.mem_reverse, hknown]
    · rw [addEdge_of_not hnodes hincludes, targetsAmong_concat_of_not hincludes, ih]

/-- The edges of an entity start at its node alone. -/
theorem addEdges_frame (hnodes : nodes.PlacesOf names) (hname : e.name ∈ names) :
    (addEdges nodes g e).labels = g.labels ∧
      ∀ node, node ≠ names.idxOf e.name →
        (addEdges nodes g e).neighbors node = g.neighbors node := by
  unfold addEdges
  induction e.relationships generalizing g with
  | nil => exact ⟨rfl, fun _ _ => rfl⟩
  | cons rel rels ih =>
    rw [List.foldl_cons]
    by_cases hincludes : rel.kind = .inclusion ∧ rel.target ∈ names
    · rw [addEdge_of_inclusion hnodes hname hincludes.1 hincludes.2]
      obtain ⟨hlabels, hrest⟩ := ih (g := g.updateEdge _ _)
      refine ⟨hlabels.trans GrowingGraph.labels_updateEdge, fun node hnode => ?_⟩
      rw [hrest node hnode, GrowingGraph.neighbors_updateEdge_of_ne hnode]
    · rw [addEdge_of_not hnodes hincludes]
      exact ih

theorem foldl_addEdges_frame (hnodes : nodes.PlacesOf names) (hes : ∀ e ∈ es, e.name ∈ names) :
    (es.foldl (addEdges nodes) g).labels = g.labels ∧
      ∀ node, (∀ e ∈ es, node ≠ names.idxOf e.name) →
        (es.foldl (addEdges nodes) g).neighbors node = g.neighbors node := by
  induction es generalizing g with
  | nil => exact ⟨rfl, fun _ _ => rfl⟩
  | cons e es ih =>
    obtain ⟨hname, hes⟩ := List.forall_mem_cons.1 hes
    obtain ⟨hlabels, hfirst⟩ := addEdges_frame (g := g) hnodes hname
    obtain ⟨hlabels', hrest⟩ := ih (g := addEdges nodes g e) hes
    refine ⟨hlabels'.trans hlabels, fun node hnode => ?_⟩
    obtain ⟨hne, hnode⟩ := List.forall_mem_cons.1 hnode
    exact (hrest node hnode).trans (hfirst node hne)

theorem neighbors_foldl_addEdges (hnodes : nodes.PlacesOf names) (hes : ∀ e ∈ es, e.name ∈ names)
    (hnodup : (es.map Entity.name).Nodup)
    (hnone : ∀ e ∈ es, g.neighbors (names.idxOf e.name) = []) (he : e ∈ es) :
    (es.foldl (addEdges nodes) g).neighbors (names.idxOf e.name) =
      ((targetsAmong names e.relationships).map (names.idxOf ·)).reverse := by
  induction es generalizing g with
  | nil => cases he
  | cons first es ih =>
    obtain ⟨hname, hrest⟩ := List.forall_mem_cons.1 hes
    obtain ⟨hfirst, hothers⟩ := List.forall_mem_cons.1 hnone
    obtain ⟨hnew, hnodup⟩ := List.nodup_cons.1 hnodup
    have happart : ∀ other ∈ es, names.idxOf first.name ≠ names.idxOf other.name :=
      fun other hother hplace =>
        hnew ((List.idxOf_inj hname).1 hplace ▸ List.mem_map_of_mem hother)
    rw [List.foldl_cons]
    rcases List.mem_cons.1 he with rfl | he
    · rw [(foldl_addEdges_frame hnodes hrest).2 _ happart]
      exact neighbors_foldl_addEdge hnodes hname hfirst _
    · refine ih hrest hnodup (fun other hother => ?_) he
      rw [(addEdges_frame hnodes hname).2 _ (happart other hother).symm, hothers other hother]

end RegistryBuilder

/-! ## Answers -/

/-- A snapshot answers every question as a registry does. -/
structure Snapshot.AnswersAs (s : Snapshot) (r : Registry) : Prop where
  entities : s.entities = r.entities
  entity? : s.entity? = r.entity?
  lookup : s.lookup = r.lookup
  contains : s.contains = r.contains
  includeNode? : s.includeNode? = r.includeNode?
  includedBy : s.includedBy = r.includeGraph.next
  fingerprint : s.fingerprint = r.fingerprint

namespace RegistryBuilder

variable {b : RegistryBuilder} {r : Registry}

theorem Holds.entity?_build (h : b.Holds r) (name : String) :
    b.build.entity? name = r.entity? name := by
  refine Option.ext fun e => ?_
  have hplace : b.index.get? name = r.includeNode? name := h.index.get?_eq_idxOf? name
  show ((b.index.get? name).bind fun place => b.entities[place]?) = some e ↔ _
  rw [hplace, h.entities, Option.bind_eq_some_iff, Registry.entity?_eq_some_iff]
  constructor
  · rintro ⟨place, hplace, he⟩
    obtain ⟨e', he', hname⟩ := Registry.includeNode?_eq_some_iff.1 hplace
    cases Option.some.inj (he'.symm.trans he)
    exact ⟨List.mem_of_getElem? he, hname⟩
  · rintro ⟨he, hname⟩
    obtain ⟨place, hplace⟩ := List.mem_iff_getElem?.1 he
    exact ⟨place, Registry.includeNode?_eq_some_iff.2 ⟨e, hplace, hname⟩, hplace⟩

theorem Holds.lookup_build (h : b.Holds r) (name : String) :
    b.build.lookup name = r.lookup name := by
  unfold Snapshot.lookup Registry.lookup
  cases hfound : r.entity? name <;> simp [h.entity?_build, hfound]

theorem Holds.contains_build (h : b.Holds r) (name : String) :
    b.build.contains name = r.contains name :=
  Bool.eq_iff_iff.2 (h.index.contains_iff.trans Registry.contains_iff_mem_names.symm)

/-- Each entity has a node at its place, and the edges of a node are its inclusions. -/
theorem Holds.graph_build (h : b.Holds r) :
    b.build.includeNodes.PlacesOf r.names ∧ b.build.includeGraph.labels = r.names ∧
      ∀ e ∈ r.entities, b.build.includeGraph.neighbors (r.names.idxOf e.name) =
        ((targetsAmong r.names e.relationships).map (r.names.idxOf ·)).reverse := by
  have hnames : b.entities.map Entity.name = r.names := by rw [h.entities, Registry.names]
  have hnodup : (b.entities.map Entity.name).Nodup := hnames ▸ r.names_nodup
  obtain ⟨hlabels, hedges, hnodes⟩ :=
    foldl_addNode (g := {}) NameMap.placesOf_empty (by simpa using hnodup)
  rw [hlabels] at hnodes
  simp only [List.nil_append, hnames] at hlabels hnodes
  have hmem : ∀ e ∈ b.entities, e.name ∈ r.names := fun e he => hnames ▸ List.mem_map_of_mem he
  refine ⟨hnodes, (foldl_addEdges_frame hnodes hmem).1.trans hlabels, fun e he => ?_⟩
  refine neighbors_foldl_addEdges hnodes hmem hnodup (fun other _ => ?_) (h.entities ▸ he)
  simp [GrowingGraph.neighbors, hedges]

theorem targetsAmong_names (r : Registry) (e : Entity) :
    targetsAmong r.names e.relationships = r.includeTargets e := by
  unfold targetsAmong Registry.includeTargets
  refine congrArg List.eraseDups (List.filter_congr fun name _ => ?_)
  exact Bool.eq_iff_iff.2 (decide_eq_true_iff.trans Registry.contains_iff_mem_names.symm)

theorem Holds.includedBy_build (h : b.Holds r) (name : String) :
    b.build.includedBy name = r.includeGraph.next name := by
  obtain ⟨hnodes, hlabels, hedges⟩ := h.graph_build
  rw [Registry.next_includeGraph]
  unfold Snapshot.includedBy Snapshot.includeNode?
  cases hentity : r.entity? name with
  | none =>
    have hnew : name ∉ r.names := by
      rw [← Registry.contains_iff_mem_names, Registry.contains, hentity]
      simp
    rw [hnodes.get?_eq_idxOf?, List.idxOf?_eq_none_iff.2 hnew]
    rfl
  | some e =>
    obtain ⟨he, rfl⟩ := Registry.entity?_eq_some_iff.1 hentity
    have hname : e.name ∈ r.names := List.mem_map_of_mem he
    have hback : ∀ target ∈ r.includeTargets e,
        r.names[r.names.idxOf target]? = some target := fun target htarget =>
      List.getElem?_idxOf
        (Registry.contains_iff_mem_names.1 (Registry.mem_includeTargets.1 htarget).1)
    rw [hnodes.get?_of_mem hname]
    show ((b.build.includeGraph.neighbors _).filterMap _) = _
    rw [hedges e he, hlabels, targetsAmong_names, List.filterMap_reverse, List.filterMap_map]
    show ((r.includeTargets e).filterMap fun target => r.names[r.names.idxOf target]?).reverse = _
    rw [List.filterMap_congr hback, List.filterMap_some]
    rfl

theorem Holds.answersAs_build (h : b.Holds r) : b.build.AnswersAs r where
  entities := h.entities
  entity? := funext h.entity?_build
  lookup := funext h.lookup_build
  contains := funext h.contains_build
  includeNode? := funext h.graph_build.1.get?_eq_idxOf?
  includedBy := funext h.includedBy_build
  fingerprint := congrArg MetricLayer.fingerprint h.entities

end RegistryBuilder

/-- The snapshot of a list of entities exists where its registry does, and answers as that. -/
theorem Snapshot.ofEntities_answersAs (es : List Entity) :
    (∃ s r, ofEntities es = .ok s ∧ Registry.ofEntities es = .ok r ∧ s.AnswersAs r) ∨
      ∃ f, ofEntities es = .error f ∧ Registry.ofEntities es = .error f := by
  unfold ofEntities Registry.ofEntities
  obtain ⟨b, r, hrun, hcalls, hholds⟩ | ⟨f, b, hrun, hcalls⟩ :=
    RegistryBuilder.holds_empty.run_forM es
  · rw [hrun]
    exact Or.inl ⟨b.build, r, rfl, hcalls, hholds.answersAs_build⟩
  · rw [hrun]
    exact Or.inr ⟨f, rfl, hcalls⟩

namespace Registry

/-- Over every run of calls, a call is refused for a name that is taken or repeats, and then changes
nothing. The accepted entities are registered in order under names of their own, each with its
implied inclusions; every one is found by its name and nothing else is; and registering them again
gives the same entities and the same fingerprint. A builder that keeps maps of places and nodes
refuses the same calls, is then as it was, and what it builds gives the same answers. -/
theorem registered_of_run (calls : List Entity) :
    (∀ e, (∀ f, ((empty.run calls).attempt e).2 = some f ↔
          Refuses ((empty.accepted calls).map Entity.name) e f) ∧
        (((empty.run calls).attempt e).2 ≠ none →
          ((empty.run calls).attempt e).1 = empty.run calls)) ∧
      (empty.run calls).entities = (empty.accepted calls).map (fun e =>
        { e with
          relationships := e.relationships ++
            ((e.includeRoots.filter fun root =>
              !e.declaresInclusion root).eraseDups).map Relationship.inclusion }) ∧
      ((empty.accepted calls).map Entity.name).Nodup ∧
      (∀ place e, (empty.run calls).entities[place]? = some e →
        (empty.run calls).entity? e.name = some e ∧ (empty.run calls).lookup e.name = .ok e ∧
          (empty.run calls).contains e.name = true ∧
          (empty.run calls).includeNode? e.name = some place) ∧
      (∀ name, name ∉ (empty.accepted calls).map Entity.name →
        (empty.run calls).entity? name = none ∧
          (empty.run calls).lookup name = .error (.unknownEntity name) ∧
          (empty.run calls).contains name = false ∧
          (empty.run calls).includeNode? name = none) ∧
      (∃ again, ofEntities (empty.run calls).entities = .ok again ∧
        again.entities = (empty.run calls).entities ∧
        again.fingerprint = (empty.run calls).fingerprint) ∧
      (∀ e, ((RegistryBuilder.run {} calls).attempt e).2 = ((empty.run calls).attempt e).2 ∧
        (((RegistryBuilder.run {} calls).attempt e).2 ≠ none →
          ((RegistryBuilder.run {} calls).attempt e).1 = RegistryBuilder.run {} calls)) ∧
      (RegistryBuilder.run {} calls).build.AnswersAs (empty.run calls) := by
  have hnames := names_run calls
  have hholds : (RegistryBuilder.run {} calls).Holds (empty.run calls) :=
    RegistryBuilder.holds_empty.run calls
  refine ⟨fun e => ⟨fun f => ?_, fun hfails => ?_⟩, ?_, ?_, fun place e => finds_of_getElem?, ?_,
    ?_, fun e => (hholds.attempt e).2, hholds.answersAs_build⟩
  · rw [attempt_fault_iff, hnames]
  · cases h : (empty.run calls).register e with
    | ok next => exact absurd (congrArg Prod.snd (attempt_of_ok h)) hfails
    | error f => exact congrArg Prod.fst (attempt_of_error h)
  · rw [entities_run]
    exact List.map_congr_left fun e _ => e.withInclusions_eq
  · rw [← hnames]
    exact (empty.run calls).names_nodup
  · rw [← hnames]
    exact fun name => finds_nothing
  · obtain ⟨again, hagain, hentities⟩ := ofEntities_entities (empty.run calls)
    exact ⟨again, hagain, hentities, congrArg MetricLayer.fingerprint hentities⟩

/-- A taken name is refused, and the view that comes after it includes the users. -/
example :
    let calls := [Shop.users, { Shop.users with measures := [] }, Shop.view]
    (RegistryBuilder.run {} calls).build.includedBy "shop" = ["users"] := by
  decide +kernel

end Registry

end MetricLayer
