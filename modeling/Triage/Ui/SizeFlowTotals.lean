import Triage.Data.Condensation
import Triage.Ui.FileGroups
import Triage.Ui.SizeFlowReach

/-!
# Reachable sizes

The size of what a file imports, directly or not, counts each file once. Files that import each
other are taken for one; a total is that of the only import and the file's own, or that of a walk,
or, once the walks have spent their budget, one of the batches that are left.

## Main results

* `sum_exact` : each sum, after any others, is that over what is reached.
-/

namespace Triage.SizeFlow

open FileGroups Grouping List Function Components Links

variable {F : Type*} [DecidableEq F]

/-- The total of the only group that a group leads to, where it is known. -/
def onlyChild (next : ℕ → List ℕ) (totals : ℕ → Option Total) (id : ℕ) : Option Total :=
  match next id with
  | [child] => totals child
  | _ => none

/-- The totals of groups, each after those it leads to. -/
def totalsFrom (n : ℕ) (next : ℕ → List ℕ) (order : List ℕ) (weights : ℕ → Total) (budget : ℕ) :
    List ℕ → Walker → (ℕ → Option Total) → (ℕ → Option Total) × Walker
  | [], w, totals => (totals, w)
  | id :: rest, w, totals =>
    match onlyChild next totals id with
    | some total =>
      totalsFrom n next order weights budget rest w
        (update totals id (some (weights id + total)))
    | none =>
      match w.sum n next weights [id] (some budget) with
      | (some total, w') =>
        totalsFrom n next order weights budget rest w' (update totals id (some total))
      | (none, w') =>
        ((batchedReachability n next order weights (id :: rest)).foldl
          (fun totals p => update totals p.1 (some p.2)) totals, w')

/-- What `reachability` keeps for its sums. -/
structure Reachability (F : Type*) where
  groups : List (List F)
  next : ℕ → List ℕ
  weights : ℕ → Total
  totals : ℕ → Option Total

def reachability (le : F → F → Bool) (ids : List F) (files : F → FlowFile) (links : F → List F) :
    Reachability F × Walker :=
  have groups := stronglyConnected le ids links
  have weights := fun id => ((groups[id]?.getD []).map (weigh ∘ files)).sum
  have condensed := Components.condense (Components.groupLinks links ids groups)
  have next := condensed.1
  have order := (Arrivals.settle next (fun _ p _ => p) groups.length condensed.2 ()).order
  have budget := 8 * (groups.length + ((List.range groups.length).map fun id =>
    (next id).length).sum)
  have final := totalsFrom groups.length next order weights budget order.reverse
    ⟨fun _ => 0, 0, 0⟩ fun _ => none
  (⟨groups, next, weights, final.1⟩, final.2)

namespace Reachability

variable (r : Reachability F)

/-- The sum of some files, with what the walks share. -/
def sum (seeds : List F) (w : Walker) : Option Total × Walker :=
  match newSet (seeds.map (Components.groupOf r.groups)) with
  | [start] => (r.totals start, w)
  | starts => w.sum r.groups.length r.next r.weights starts none

/-- One sum after the other. -/
def sums : List (List F) → Walker → List (Option Total)
  | [], _ => []
  | seeds :: rest, w => (r.sum seeds w).1 :: sums rest (r.sum seeds w).2

end Reachability

/-! ### Totals -/

section Totals

variable {n : ℕ} {next : ℕ → List ℕ} {weights : ℕ → Total} {order : List ℕ} {id : ℕ}

/-- The total of a group. -/
noncomputable def total (n : ℕ) (next : ℕ → List ℕ) (weights : ℕ → Total) (id : ℕ) : Total :=
  Links.reachSum next (List.range n) weights [id]

theorem onlyChild_eq_some {totals : ℕ → Option Total} {t : Total}
    (h : onlyChild next totals id = some t) :
    ∃ child, next id = [child] ∧ totals child = some t := by
  rw [onlyChild.eq_def] at h
  split at h
  · rename_i child hnext
    exact ⟨child, hnext, h⟩
  · cases h

theorem foldl_update {V : Type*} [DecidableEq V] {T : Type*} (f : V → T) (totals : V → Option T)
    (vs : List V) (v : V) :
    (vs.map fun v => (v, f v)).foldl
      (fun (totals : V → Option T) p => update totals p.1 (some p.2)) totals v =
        if v ∈ vs then some (f v) else totals v := by
  induction vs using reverseRecOn with
  | nil => simp
  | append_singleton vs u ih =>
    rw [map_append, foldl_append, map_singleton, foldl_cons, foldl_nil, update_apply, ih]
    by_cases hv : v = u
    · subst hv
      simp
    · simp [hv]

/-- Once some totals are known, all are found. -/
theorem totalsFrom_spec (weights : ℕ → Total) (hclosed : ∀ id < n, ∀ child ∈ next id, child < n)
    (hacyclic : ∀ v, ¬Relation.TransGen (fun a b => b ∈ next a) v v)
    (hsettled : Links.Settled next order.reverse) (hlt : ∀ id ∈ order, id < n) (budget : ℕ)
    (done rest : List ℕ) (horder : order.reverse = done ++ rest) {w : Walker} (hw : w.Stamped)
    (totals : ℕ → Option Total) (hdone : ∀ id ∈ done, totals id = some (total n next weights id)) :
    (∀ id ∈ order, (totalsFrom n next order weights budget rest w totals).1 id =
        some (total n next weights id)) ∧
      (totalsFrom n next order weights budget rest w totals).2.Stamped := by
  induction rest generalizing done w totals with
  | nil =>
    rw [append_nil] at horder
    exact ⟨fun id hid => hdone id (horder ▸ mem_reverse.2 hid), hw⟩
  | cons id rest ih =>
    have hsplit : order.reverse = (done ++ [id]) ++ rest := by
      rw [horder, append_assoc]
      rfl
    have hmem : ∀ j ∈ done ++ id :: rest, j ∈ order := fun j hj => mem_reverse.1 (horder ▸ hj)
    have hid : id < n := hlt id (hmem id (by simp))
    have hknown : ∀ t, t = total n next weights id → ∀ j ∈ done ++ [id],
        update totals id (some t) j = some (total n next weights j) := by
      rintro t rfl j hj
      rw [update_apply]
      split
      · rename_i heq
        rw [heq]
      · rename_i hne
        rcases mem_append.1 hj with hj | hj
        · exact hdone j hj
        · exact absurd (mem_singleton.1 hj) hne
    have hwalk := Walker.sum_spec weights (some budget) hclosed
      (fun j hj => (mem_singleton.1 hj).symm ▸ hid) hw
    rw [totalsFrom.eq_def]
    dsimp only
    split
    · -- the only child is known, for it comes before
      rename_i t honly
      obtain ⟨child, hnext, hchild⟩ := onlyChild_eq_some honly
      have hin : child ∈ done := hsettled done id rest horder child (by rw [hnext]; simp)
      rw [hdone child hin, Option.some_inj] at hchild
      refine ih _ hsplit hw _ (hknown _ ?_)
      rw [← hchild, total, total, reachSum_head nodup_range (mem_range.2 hid) hnext]
      exact fun hback => hacyclic id (Relation.TransGen.head' (by rw [hnext]; simp) hback)
    · split
      · rename_i t w' hsum
        rw [hsum] at hwalk
        refine ih _ hsplit hwalk.2 _ (hknown t ?_)
        rcases hwalk.1 with hfound | ⟨-, hnone⟩
        · exact Option.some_inj.1 hfound
        · cases hnone
      · rename_i w' hsum
        rw [hsum] at hwalk
        refine ⟨fun j hj => ?_, hwalk.2⟩
        rw [batchedReachability_eq hsettled fun j hj => hmem j (mem_append_right _ hj)]
        dsimp only
        rw [foldl_update]
        split
        · rfl
        · rename_i hnot
          rw [← mem_reverse, horder] at hj
          exact hdone j ((mem_append.1 hj).resolve_right hnot)

end Totals

/-! ### Files -/

section Files

variable {le : F → F → Bool} {ids : List F} {files : F → FlowFile} {links : F → List F}
  {groups : List (List F)}

/-- The sum over the groups is that over their files. -/
theorem reachSum_groups (files : F → FlowFile) (hids : ids.Nodup)
    (hclosed : ∀ f ∈ ids, ∀ g ∈ links f, g ∈ ids)
    (h : Components links ids groups) {seeds : List F} (hseeds : ∀ f ∈ seeds, f ∈ ids)
    {starts : List ℕ} (hstarts : ∀ c, c ∈ starts ↔ ∃ f ∈ seeds, groupOf groups f = c) :
    reachSum (condense (groupLinks links ids groups)).1
        (List.range groups.length)
        (fun id => ((groups[id]?.getD []).map (weigh ∘ files)).sum) starts =
      reachSum links ids (weigh ∘ files) seeds := by
  obtain ⟨found, hfound, hmem⟩ := exists_reached
    (condense (groupLinks links ids groups)).1
    (nodup_range (n := groups.length)) starts
  have hgroup : ∀ c f, f ∈ groups[c]?.getD [] ↔ f ∈ ids ∧ groupOf groups f = c := by
    intro c f
    cases hc : groups[c]? with
    | none =>
      refine iff_of_false (not_mem_nil) ?_
      rintro ⟨hf, rfl⟩
      have hlt := groupOf_lt h hf
      rw [List.getElem?_eq_none_iff] at hc
      omega
    | some group => exact mem_group_iff h hids hc
  have hreached : ∀ f ∈ ids, Links.ReachedFrom
      (condense (groupLinks links ids groups)).1 starts
        (groupOf groups f) ↔ Links.ReachedFrom links seeds f := by
    intro f hf
    constructor
    · rintro ⟨c, hc, hlead⟩
      obtain ⟨g, hg, rfl⟩ := (hstarts c).1 hc
      exact ⟨g, hg, (leads_iff h hclosed (hseeds g hg) hf).1 hlead⟩
    · rintro ⟨g, hg, hlead⟩
      exact ⟨_, (hstarts _).2 ⟨g, hg, rfl⟩, (leads_iff h hclosed (hseeds g hg) hf).2 hlead⟩
  have hnodup : (found.flatMap fun c => groups[c]?.getD []).Nodup := by
    rw [nodup_flatMap]
    constructor
    · intro c hc
      have hlt := mem_range.1 ((hmem c).1 hc).1
      rw [getElem?_eq_getElem hlt]
      exact (nodup_flatten.1 (h.perm.nodup_iff.2 hids)).1 _ (getElem_mem hlt)
    · refine hfound.imp fun {c d} hne f hc hd => hne ?_
      rw [← ((hgroup c f).1 hc).2, ((hgroup d f).1 hd).2]
  rw [← reachSum_eq nodup_range hfound hmem, ← reachSum_eq hids hnodup fun f => ?_]
  · rw [map_flatMap, flatMap_def, sum_flatten, map_map]
    rfl
  · rw [mem_flatMap]
    constructor
    · rintro ⟨c, hc, hf⟩
      obtain ⟨hids, rfl⟩ := (hgroup c f).1 hf
      exact ⟨hids, (hreached f hids).1 ((hmem _).1 hc).2⟩
    · rintro ⟨hf, hlead⟩
      refine ⟨groupOf groups f, (hmem _).2 ⟨?_, (hreached f hf).2 hlead⟩, (hgroup _ f).2 ⟨hf, rfl⟩⟩
      exact mem_range.2 (groupOf_lt h hf)

/-- What holds once the totals of the groups are found. -/
structure Reachability.Right (r : Reachability F) (ids : List F) (files : F → FlowFile)
    (links : F → List F) : Prop where
  components : Components links ids r.groups
  next : r.next = (Components.condense (Components.groupLinks links ids r.groups)).1
  weights : r.weights = fun id => ((r.groups[id]?.getD []).map (weigh ∘ files)).sum
  totals : ∀ id < r.groups.length, r.totals id = some (total r.groups.length r.next r.weights id)

theorem reachability_right (le : F → F → Bool) (files : F → FlowFile) (hids : ids.Nodup)
    (hclosed : ∀ f ∈ ids, ∀ g ∈ links f, g ∈ ids) :
    (reachability le ids files links).1.Right ids files links ∧
      (reachability le ids files links).2.Stamped := by
  have h := stronglyConnected_spec le hids hclosed
  have hnumbered := numbered h hclosed
  have hacyclic := acyclic h hclosed
  have htopological : Topological (stronglyConnected le ids links).length
      (condense (groupLinks links ids (stronglyConnected le ids links))).1
      (Arrivals.settle _ (fun _ p _ => p) _ (condense
        (groupLinks links ids (stronglyConnected le ids links))).2 ()).order :=
    (Arrivals.settle_spec _ () hnumbered
      (fun v _ => condense_snd (groupLinks_lt h)) hacyclic).1
  have hsettled := Links.Settled.of_topological htopological hnumbered
    fun v hv => hacyclic v (Relation.TransGen.single hv)
  have hspec := totalsFrom_spec
    (fun id => (((stronglyConnected le ids links)[id]?.getD []).map (weigh ∘ files)).sum)
    hnumbered.closed hacyclic hsettled
    (fun id hid => mem_range.1 (htopological.perm.mem_iff.1 hid))
    (8 * ((stronglyConnected le ids links).length +
      ((List.range (stronglyConnected le ids links).length).map fun id =>
        ((condense
          (groupLinks links ids (stronglyConnected le ids links))).1 id).length).sum))
    [] _ rfl (⟨fun _ => le_rfl, by decide⟩ : Walker.Stamped ⟨fun _ => 0, 0, 0⟩) (fun _ => none)
    fun id hid => (nomatch hid)
  refine ⟨⟨h, rfl, rfl, fun id hid => ?_⟩, hspec.2⟩
  exact hspec.1 id (htopological.perm.mem_iff.2 (mem_range.2 hid))

/-- One sum, with whatever the walks left before it. -/
theorem Reachability.sum_spec {r : Reachability F} (hids : ids.Nodup)
    (hclosed : ∀ f ∈ ids, ∀ g ∈ links f, g ∈ ids) (h : r.Right ids files links) {seeds : List F}
    (hseeds : ∀ f ∈ seeds, f ∈ ids) {w : Walker} (hw : w.Stamped) :
    (r.sum seeds w).1 = some (reachSum links ids (weigh ∘ files) seeds) ∧
      (r.sum seeds w).2.Stamped := by
  have hstarts : ∀ c, c ∈ newSet (seeds.map (groupOf r.groups)) ↔
      ∃ f ∈ seeds, groupOf r.groups f = c := by
    intro c
    rw [mem_newSet, mem_map]
  have hlt : ∀ c ∈ newSet (seeds.map (groupOf r.groups)), c < r.groups.length := by
    intro c hc
    obtain ⟨f, hf, rfl⟩ := (hstarts c).1 hc
    exact groupOf_lt h.components (hseeds f hf)
  have hsum := reachSum_groups files hids hclosed h.components hseeds hstarts
  rw [← h.next, ← h.weights] at hsum
  have hnumbered := numbered h.components hclosed
  rw [← h.next] at hnumbered
  rw [Reachability.sum.eq_def]
  split
  · rename_i start hstart
    rw [hstart] at hsum hlt
    exact ⟨(h.totals start (hlt start (by simp))).trans (congrArg some hsum), hw⟩
  · have hwalk := Walker.sum_spec r.weights none hnumbered.closed hlt hw
    refine ⟨?_, hwalk.2⟩
    rcases hwalk.1 with hfound | ⟨hnone, -⟩
    · exact hfound.trans (congrArg some hsum)
    · exact absurd rfl hnone

/-- Each sum, after any others, is that over the files that the seeds lead to. -/
theorem sum_exact (le : F → F → Bool) (files : F → FlowFile) (hids : ids.Nodup)
    (hclosed : ∀ f ∈ ids, ∀ g ∈ links f, g ∈ ids) {calls : List (List F)}
    (hcalls : ∀ seeds ∈ calls, ∀ f ∈ seeds, f ∈ ids) :
    (reachability le ids files links).1.sums calls (reachability le ids files links).2 =
      calls.map fun seeds => some (Links.reachSum links ids (weigh ∘ files) seeds) := by
  obtain ⟨hright, hstamped⟩ := reachability_right le files hids hclosed
  generalize (reachability le ids files links).2 = w at hstamped
  induction calls generalizing w with
  | nil => rfl
  | cons seeds calls ih =>
    obtain ⟨hsum, hnext⟩ := Reachability.sum_spec hids hclosed hright
      (hcalls seeds mem_cons_self) hstamped
    rw [Reachability.sums, hsum, map_cons,
      ih (fun seeds hmem => hcalls seeds (mem_cons_of_mem _ hmem)) _ hnext]

/-- Two files that import each other, and a third that both import. -/
theorem sum_exact_cycle :
    (reachability (fun a b => decide (a ≤ b)) [0, 1, 2]
        (fun f => ⟨if f = 2 then none else some 5, false⟩)
        (fun f => if f = 2 then [2] else [1 - f, 2])).1.sums [[1], [2], [0, 2]]
      (reachability (fun a b => decide (a ≤ b)) [0, 1, 2]
        (fun f => ⟨if f = 2 then none else some 5, false⟩)
        (fun f => if f = 2 then [2] else [1 - f, 2])).2 =
      [[1], [2], [0, 2]].map fun seeds =>
        some (Links.reachSum (fun f => if f = 2 then [2] else [1 - f, 2]) [0, 1, 2]
          (weigh ∘ fun f => ⟨if f = 2 then none else some 5, false⟩) seeds) := by
  refine sum_exact (fun a b => decide (a ≤ b)) _ ?_ ?_ ?_
  · decide
  · decide
  · decide

end Files

end Triage.SizeFlow
