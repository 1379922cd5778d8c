import Orchestrator.Solo.Chains

/-!
# Orders that leave a step behind

Where there is a chain of steps that can be completed by signals, there is an order of
visits in which this happens: the step that is to be left comes first, then the chain,
then all others. The chain gets the signals that it needs, since the others have their
turn afterwards.
-/

namespace Orchestrator

open Lib

/-- The names begin with that of the step that is left and those of the chain. -/
def Fronts (l : List Step) (b : Step) (names : List String) : Prop :=
  ∃ rest, names = b.stepName :: (l.reverse.map Step.stepName ++ rest) ∧
    ∀ x ∈ b :: l, x.stepName ∉ rest

/-- Steps of the chain that have not been completed are as they were, and their signals
have not been taken by others. -/
structure Steered (l : List Step) (b : Step) (v : Db) (heard : List Step) : Prop where
  left : b ∈ v.steps
  rows : ∀ t ∈ l, t ∈ heard ∨ t ∈ v.steps
  apart : ∀ x ∈ heard, x ∈ l ∨ ∀ t ∈ l, t ∈ heard ∨ x.wantName ≠ t.wantName

section Steering

variable {runID : UUID} {v₀ v v' : Db} {heard l : List Step} {b t t' : Step} {name : String}

/-- A visit of a step that is not to be moved on changes nothing. -/
theorem Visit.idle {C : Db → Step → Prop} {M : Db → Step → Db → Prop}
    (h : Visit C M runID name v v') (hb : Base v) (ht : t ∈ v.steps)
    (hrun : t.workflowRunID = runID) (hname : t.stepName = name) (hC : ¬ C v t) : v' = v := by
  rcases h with ⟨rfl, -⟩ | ⟨s, hs, hsrun, hsname, hCs, -⟩
  · rfl
  · rw [hb.graph.name_unique ht hs (hsrun.trans hrun.symm) (hsname.trans hname.symm)] at hCs
    exact absurd hCs hC

/-- Another step is moved on without a signal. -/
theorem Steered.keep (h : Steered l b v heard) (hput : Becomes v t t' v') (ht : t ∈ v.steps)
    (hne : t ∉ b :: l) : Steered l b v' heard where
  left := hput.keeps ht h.left (fun heq => hne (heq ▸ List.mem_cons_self))
  rows x hx := (h.rows x hx).imp_right (fun hmem => hput.keeps ht hmem
    (fun heq => hne (heq ▸ List.mem_cons_of_mem b hx)))
  apart := h.apart

/-- A step is completed by a signal that the chain does not miss. -/
theorem Steered.hear (h : Steered l b v heard) (hput : Becomes v t t' v') (ht : t ∈ v.steps)
    (hne : t ≠ b) (hapart : t ∈ l ∨ ∀ x ∈ l, x ∈ heard ∨ t.wantName ≠ x.wantName) :
    Steered l b v' (t :: heard) where
  left := hput.keeps ht h.left hne.symm
  rows x hx := by
    by_cases heq : x = t
    · exact Or.inl (heq ▸ List.mem_cons_self)
    · exact (h.rows x hx).imp (List.mem_cons_of_mem t) (fun hmem => hput.keeps ht hmem heq)
  apart x hx := by
    have hmore : (x ∈ l ∨ ∀ y ∈ l, y ∈ heard ∨ x.wantName ≠ y.wantName) →
        x ∈ l ∨ ∀ y ∈ l, y ∈ t :: heard ∨ x.wantName ≠ y.wantName :=
      fun h => h.imp_right (fun hall y hy => (hall y hy).imp_left (List.mem_cons_of_mem t))
    rcases List.mem_cons.mp hx with rfl | hx
    · exact hmore hapart
    · exact hmore (h.apart x hx)

/-- A step of the chain that has not been completed has a signal: of those with its name
fewer have been used than the chain needs. -/
theorem Steered.offered (h : Steered l b v heard) (hheed : Heeded runID v₀ v heard)
    (hchain : Completable (v₀.position runID) l) (ht : t ∈ l) (hout : t ∉ heard) :
    ∃ g : Signal, g.Reaches v t := by
  have hcount : ∀ xs : List Step, (xs.map Step.wantName).count t.wantName =
      (xs.filter (fun x => x.wantName == t.wantName)).length := by
    intro xs
    rw [List.count_eq_countP, List.countP_map, List.countP_eq_length_filter]
    rfl
  have hused : (heard.filter (fun x => x.wantName == t.wantName)).length <
      (l.filter (fun x => x.wantName == t.wantName)).length := by
    have hnodup : (t :: heard.filter (fun x => x.wantName == t.wantName)).Nodup :=
      List.nodup_cons.mpr ⟨fun hmem => hout (List.mem_of_mem_filter hmem),
        hheed.chain.nodup.filter _⟩
    refine (List.subperm_of_subset hnodup (fun x hx => ?_)).length_le
    rcases List.mem_cons.mp hx with rfl | hx
    · exact List.mem_filter.mpr ⟨ht, beq_self_eq_true _⟩
    · obtain ⟨hx, hwant⟩ := List.mem_filter.mp hx
      refine List.mem_filter.mpr ⟨(h.apart x hx).resolve_right (fun hall => ?_), hwant⟩
      exact (hall t ht).elim hout (fun hne => hne (beq_iff_eq.mp hwant))
  have hneeds := hchain.subperm.count_le t.wantName
  have hoffers : (v₀.offers runID).count t.wantName = _ := hheed.offers.count_eq t.wantName
  have hposition : (v₀.position runID).offers = v₀.offers runID := rfl
  rw [List.count_append, hcount] at hoffers
  rw [hcount, hposition, hoffers] at hneeds
  obtain ⟨g, hg, hrun, hunused, hname⟩ := mem_offers.mp
    (List.count_pos_iff.mp (show 0 < (v.offers runID).count t.wantName by omega))
  exact ⟨g, hg, hrun.trans (hchain.opens ht).2.1.symm, hname, hunused⟩

/-- Neither a step of the chain nor the one that is to be left is ever blocked. -/
theorem Steered.unblocked (h : Steered l b v []) (hpath : Passes runID v₀ v) (hb : Base v₀)
    (hchain : Completable (v₀.position runID) l) (hleaves : (v₀.position runID).Leaves l b)
    {x : Step} (hx : x ∈ b :: l) : ¬ Blocked v.steps x := by
  rintro ⟨d, hd, hdrun, hdep, hbad⟩
  have hopen : (v₀.position runID).opens x := (List.mem_cons.mp hx).elim
    (fun heq => heq ▸ hleaves.opens) hchain.opens
  have hdrun := hdrun.trans hopen.2.1
  have hmet : (v₀.position runID).Met l d.stepName := (List.mem_cons.mp hx).elim
    (fun heq => hleaves.met _ (heq ▸ hdep)) (fun hx => hchain.met hx hdep)
  have hbv := hpath.base hb
  rcases hmet with hdone | ⟨y, hy, hname⟩
  · rw [(Db.Completes.evolves hdone (hpath.evolves hb)).status hbv hd hdrun rfl] at hbad
    cases hbad
  · have hyrow := (h.rows y hy).resolve_left List.not_mem_nil
    obtain ⟨-, hyrun, hst⟩ := hchain.opens hy
    rw [hbv.graph.name_unique hyrow hd (hdrun.trans hyrun.symm) hname.symm] at hbad
    rcases hst with hst | hst <;> rw [hst] at hbad <;> cases hbad

/-- The loops of `propagateSkips` pass over these steps. -/
theorem steered_of_skipping {names : List String} (hb : Base v)
    (hchain : Completable (v.position runID) l) (hleaves : (v.position runID).Leaves l b)
    (h : Visits (skipping runID) names v v') : Parking runID v v' [] ∧ Steered l b v' [] := by
  refine h.rule (I := fun _ w => Parking runID v w [] ∧ Steered l b w []) ?_ ⟨.start v,
    hleaves.opens.1, fun t ht => Or.inr (hchain.opens ht).1, fun _ hx => absurd hx List.not_mem_nil⟩
  rintro name rest w w' - ⟨hpark, hs⟩ (⟨rfl, -⟩ | ⟨t, ht, -, -, hC, hskip, hpath⟩)
  · exact ⟨hpark, hs⟩
  · refine ⟨hpark.skip hb hskip hpath, ?_⟩
    obtain ⟨-, t', hput, -⟩ := hskip
    exact hs.keep hput ht (fun hmem => hs.unblocked hpark.path hb hchain hleaves hmem hC.2)

/-- A visit by the first loop of `dispatchReady`: of a step of the chain, or after all of
them have been visited. -/
theorem Parking.visit (h : Parking runID v₀ v heard) (hs : Steered l b v heard) (hb : Base v₀)
    (hchain : Completable (v₀.position runID) l) (hvisit : resolving runID name v v')
    (hname : name ≠ b.stepName)
    (hown : (∃ t ∈ l, t.stepName = name) ∨ ∀ t ∈ l, t.status = .waiting → t ∈ heard) :
    ∃ heard', Parking runID v₀ v' heard' ∧ Steered l b v' heard' ∧ heard ⊆ heard' ∧
      ∀ t ∈ l, t.stepName = name → t.status = .waiting → t ∈ heard' := by
  have hbv := h.base hb
  rcases hvisit with ⟨rfl, hidle⟩ | ⟨s, hmem, hrun, rfl, hC, hres, hpath⟩
  · refine ⟨heard, h, hs, List.Subset.refl _, fun t ht htname hst => ?_⟩
    by_contra hout
    exact hidle t ((hs.rows t ht).resolve_left hout) (hchain.opens ht).2.1 htname
      ⟨hst, hs.offered h.toHeeded hchain ht hout⟩
  · -- A step of the chain that has the name and is still there is the one that is visited.
    have hsame : ∀ t ∈ l, t.stepName = s.stepName → t = s := by
      intro t ht htname
      have htrun := (hchain.opens ht).2.1
      rcases hs.rows t ht with hclosed | hrow
      · have hdone := (h.closed t hclosed).status hbv hmem hrun htname.symm
        rw [hC.1] at hdone
        cases hdone
      · exact hbv.graph.name_unique hmem hrow (htrun.trans hrun.symm) htname
    have hapart : s ∈ l ∨ ∀ t ∈ l, t ∈ heard ∨ s.wantName ≠ t.wantName := by
      rcases hown with ⟨t, ht, htname⟩ | hwaiting
      · exact Or.inl (hsame t ht htname ▸ ht)
      · refine or_iff_not_imp_left.mpr (fun hout t ht => ?_)
        rcases (hchain.opens ht).2.2 with hst | hst
        · exact Or.inr (fun hwant => hout (hchain.parked ht hst
            ⟨h.kept s hmem hrun hC.1, hrun, Or.inr hC.1⟩ hC.1 hwant))
        · exact Or.inl (hwaiting t ht hst)
    refine ⟨s :: heard, h.resolve hb hmem hrun hC.1 hres hpath, ?_, List.subset_cons_self s heard,
      fun t ht htname _ => hsame t ht htname ▸ List.mem_cons_self⟩
    obtain ⟨-, s', sig, hput, -⟩ := hres
    exact hs.hear hput hmem (fun heq => hname (heq ▸ rfl)) hapart

/-- The first loop of `dispatchReady` completes what is parked in the chain, and no step that
is not takes a signal from it. -/
theorem Parking.steered {rest : List String} (h : Parking runID v₀ v heard)
    (hs : Steered l b v heard) (hb : Base v₀) (hchain : Completable (v₀.position runID) l)
    (hleaves : (v₀.position runID).Leaves l b) (hrest : ∀ x ∈ b :: l, x.stepName ∉ rest)
    (hvisits : Visits (resolving runID) (b.stepName :: (l.reverse.map Step.stepName ++ rest)) v
      v') :
    ∃ heard', Parking runID v₀ v' heard' ∧ Steered l b v' heard' ∧
      ∀ t ∈ l, t.status = .waiting → t ∈ heard' := by
  obtain ⟨w, hfirst, hvisits⟩ := hvisits
  have hsame : w = v := hfirst.idle (h.base hb) hs.left hleaves.opens.2.1 rfl (fun hC => by
    have hst := hC.1
    rw [hleaves.pending] at hst
    cases hst)
  subst hsame
  obtain ⟨w, hfront, hvisits⟩ := hvisits.append
  have hnames : ∀ t ∈ l, t.stepName ≠ b.stepName := fun t ht heq => by
    obtain ⟨htmem, htrun, -⟩ := hchain.opens ht
    exact hleaves.out (hb.graph.name_unique htmem hleaves.opens.1
      (hleaves.opens.2.1.trans htrun.symm) heq.symm ▸ ht)
  have hchained := hfront.rule (I := fun rest w => ∃ heard',
    Parking runID v₀ w heard' ∧ Steered l b w heard' ∧
      ∀ t ∈ l, t.status = .waiting → t.stepName ∈ rest ∨ t ∈ heard') ?_
    ⟨heard, h, hs, fun t ht _ => Or.inl (List.mem_map_of_mem (List.mem_reverse.mpr ht))⟩
  · obtain ⟨heard', hpark, hs', hwaiting⟩ := hchained
    refine hvisits.rule (I := fun _ w => ∃ heard', Parking runID v₀ w heard' ∧
      Steered l b w heard' ∧ ∀ t ∈ l, t.status = .waiting → t ∈ heard') ?_
      ⟨heard', hpark, hs', fun t ht hst => (hwaiting t ht hst).resolve_left List.not_mem_nil⟩
    rintro name _ w w' hmem ⟨heard, hpark, hs, hwaiting⟩ hvisit
    obtain ⟨heard', hpark', hs', hsub, -⟩ := hpark.visit hs hb hchain hvisit
      (fun heq => hrest b List.mem_cons_self (heq ▸ hmem)) (Or.inr hwaiting)
    exact ⟨heard', hpark', hs', fun t ht hst => hsub (hwaiting t ht hst)⟩
  · rintro name _ w w' hmem ⟨heard, hpark, hs, hwaiting⟩ hvisit
    obtain ⟨t, ht, rfl⟩ := List.mem_map.mp hmem
    have ht := List.mem_reverse.mp ht
    obtain ⟨heard', hpark', hs', hsub, hown⟩ := hpark.visit hs hb hchain hvisit (hnames t ht)
      (Or.inl ⟨t, ht, rfl⟩)
    refine ⟨heard', hpark', hs', fun x hx hst => ?_⟩
    rcases hwaiting x hx hst with hx' | hx'
    · exact (List.mem_cons.mp hx').elim (fun heq => Or.inr (hown x hx heq hst)) Or.inl
    · exact Or.inr (hsub hx')

/-- A visit of a step of the chain by the second loop of `dispatchReady`. -/
theorem Listening.visit (h : Listening runID v₀ v heard) (hs : Steered l b v heard) (hb : Base v₀)
    (hchain : Completable (v₀.position runID) l) (hvisit : dispatching runID t.stepName v v')
    (ht : t ∈ l) (hne : t ≠ b) (hwait : t.status = .waiting → t ∈ heard)
    (hmet : ∀ dep ∈ t.dependsOn, (v₀.position runID).Met heard dep) :
    ∃ heard', Listening runID v₀ v' heard' ∧ Steered l b v' heard' ∧ heard ⊆ heard' ∧
      t ∈ heard' := by
  have hbv := h.base hb
  obtain ⟨-, hrun, hst⟩ := hchain.opens ht
  by_cases hout : t ∈ heard
  · -- It has been completed by the first loop.
    have hsame : v' = v := by
      obtain ⟨d, hd, hdrun, hdname, hdst⟩ := h.closed t hout
      refine hvisit.idle hbv hd hdrun hdname (fun hC => ?_)
      rw [hdst] at hC
      cases hC.1
    exact ⟨heard, hsame ▸ h, hsame ▸ hs, List.Subset.refl _, hout⟩
  · have hrow := (hs.rows t ht).resolve_left hout
    have hst := hst.resolve_right (fun hst => hout (hwait hst))
    have hdeps : DepsDone v.steps t := by
      intro dep hdep
      obtain ⟨d, hd, hdrun, hdname, hdst⟩ : v.Completes runID dep := by
        rcases hmet dep hdep with hdone | ⟨x, hx, rfl⟩
        · exact Db.Completes.evolves hdone (h.path.evolves hb)
        · exact h.closed x hx
      exact ⟨d, hd, hdrun.trans hrun.symm, hdname, hdst⟩
    obtain ⟨g, hg⟩ := hs.offered h.toHeeded hchain ht hout
    rcases hvisit with ⟨-, hidle⟩ | ⟨s, hmem, hsrun, hname, -, hmove, hpath⟩
    · exact absurd ⟨hst, hdeps⟩ (hidle t hrow hrun rfl)
    · obtain rfl := hbv.graph.name_unique hmem hrow (hrun.trans hsrun.symm) hname.symm
      rcases hmove with hres | ⟨-, -, -, ⟨-, hnone⟩ | ⟨-, htype⟩⟩
      · refine ⟨t :: heard, h.resolve hb hrow hrun hst hdeps hres hpath, ?_,
          List.subset_cons_self t heard, List.mem_cons_self⟩
        obtain ⟨-, t', sig, hput, -⟩ := hres
        exact hs.hear hput hrow hne (Or.inl ht)
      · exact absurd hg (hnone g)
      · exact absurd (hchain.type ht) htype

/-- The second loop of `dispatchReady` completes the chain in its order. -/
theorem Listening.steered (h : Listening runID v₀ v heard) (hs : Steered l b v heard)
    (hb : Base v₀) (hchain : Completable (v₀.position runID) l) (hout : b ∉ l)
    (hwaiting : ∀ t ∈ l, t.status = .waiting → t ∈ heard) {l' : List Step}
    (hpart : Completable (v₀.position runID) l') (hsub : l' ⊆ l)
    (hvisits : Visits (dispatching runID) (l'.reverse.map Step.stepName) v v') :
    ∃ heard', Listening runID v₀ v' heard' ∧ Steered l b v' heard' ∧ heard ⊆ heard' ∧
      l' ⊆ heard' := by
  induction hpart generalizing v' with
  | nil =>
    obtain rfl : v' = v := hvisits
    exact ⟨heard, h, hs, List.Subset.refl _, List.nil_subset _⟩
  | @cons t l' _ _ _ _ _ hmet _ ih =>
    rw [List.reverse_cons, List.map_append] at hvisits
    obtain ⟨w, hbefore, w', hvisit, rfl⟩ := hvisits.append
    obtain ⟨heard', h', hs', hmore, hall⟩ := ih (List.subset_of_cons_subset hsub) hbefore
    have ht := hsub List.mem_cons_self
    obtain ⟨heard'', h'', hs'', hmore', hmem⟩ := h'.visit hs' hb hchain hvisit ht
      (fun heq => hout (heq ▸ ht)) (fun hst => hmore (hwaiting t ht hst))
      (fun dep hdep => (hmet dep hdep).imp_right (fun ⟨x, hx, hname⟩ => ⟨x, hall hx, hname⟩))
    exact ⟨heard'', h'', hs'', List.Subset.trans hmore hmore',
      List.cons_subset.mpr ⟨hmem, List.Subset.trans hall hmore'⟩⟩

/-- An evaluation that visits the steps in such an order leaves the step, although all its
dependencies have completed. -/
theorem Position.Leaves.swept (hleaves : (v.position runID).Leaves l b)
    (hchain : Completable (v.position runID) l) (hb : Base v)
    (h : Swept (Fronts l b) runID v v') : b ∈ v'.steps ∧ DepsDone v'.steps b := by
  obtain ⟨hskips, hnames₁, ⟨rest₁, rfl, hrest₁⟩, hresolves, hnames₂, ⟨rest₂, rfl, hrest₂⟩,
    ⟨w, hfirst, hdispatches⟩, hafter, halign⟩ := h
  have hrun : b.workflowRunID = runID := hleaves.opens.2.1
  have hm₀ := visits_passes hskips
  obtain ⟨hpark, hs⟩ := steered_of_skipping hb hchain hleaves hskips
  obtain ⟨heard, hpark, hs, hwaiting⟩ := hpark.steered hs hb hchain hleaves hrest₁ hresolves
  have hheard := heard_of_resolving (hm₀.base hb) ((ranges_passes hm₀ hb).mp hnames₁) hresolves
  -- One of the dependencies is pending between the loops, so that the step is not ready.
  have hsame := hfirst.idle (hpark.base hb) hs.left hrun rfl (fun hC => by
    obtain ⟨t, ht, hst, hdep⟩ := hleaves.last
    have hout : t ∉ heard := fun hmem => by
      have hwait := hpark.waiting t hmem
      rw [hst] at hwait
      cases hwait
    obtain ⟨d, hd, hdrun, hname, hdst⟩ := hC.2 _ hdep
    rw [(hpark.base hb).graph.name_unique ((hs.rows t ht).resolve_left hout) hd
      (hdrun.trans (hrun.trans (hchain.opens ht).2.1.symm)) hname, hst] at hdst
    cases hdst)
  subst hsame
  obtain ⟨w, hfront, hothers⟩ := hdispatches.append
  obtain ⟨heard', hlisten, hs, -, hall⟩ := (hpark.listening hb hheard).steered hs hb hchain
    hleaves.out hwaiting hchain (List.Subset.refl l) hfront
  have hbw := hlisten.base hb
  have hdeps : DepsDone w.steps b := by
    intro dep hdep
    obtain ⟨d, hd, hdrun, hname, hdst⟩ : w.Completes runID dep := by
      rcases hleaves.met dep hdep with hdone | ⟨x, hx, rfl⟩
      · exact Db.Completes.evolves hdone (hlisten.path.evolves hb)
      · exact hlisten.closed x (hall hx)
    exact ⟨d, hd, hdrun.trans hrun.symm, hname, hdst⟩
  have hpath := (visits_passes hothers).trans hafter
  refine ⟨halign.steps ▸ hothers.rule (I := fun _ w => b ∈ w.steps) ?_ hs.left,
    (hpath.evolves hbw).depsDone hdeps⟩
  rintro name rest w w' hmem hb' (⟨rfl, -⟩ | ⟨t, ht, -, rfl, -, hmove, -⟩)
  · exact hb'
  · obtain ⟨t', hput⟩ : ∃ t', Becomes w t t' w' :=
      hmove.elim (fun ⟨_, t', _, hput, _⟩ => ⟨t', hput⟩) (fun ⟨_, t', hput, _⟩ => ⟨t', hput⟩)
    exact hput.keeps ht hb' (fun heq => hrest₂ b List.mem_cons_self (heq ▸ hmem))

end Steering

/-- A list without repetitions can be drawn in every order. -/
theorem exists_shuffle {α : Type} [DecidableEq α] {keys names : List α} (hperm : names.Perm keys)
    (hnodup : keys.Nodup) : ∃ σ : (n : ℕ) → Equiv.Perm (Fin n), ∀ d : Draw, d.order = σ →
      d.shuffle keys = names := by
  have hlen := hperm.length_eq
  have hmem : ∀ i : Fin keys.length, names.get (i.cast hlen.symm) ∈ keys :=
    fun i => hperm.mem_iff.mp (List.get_mem _ _)
  let f : Fin keys.length → Fin keys.length := fun i =>
    ⟨keys.idxOf (names.get (i.cast hlen.symm)), List.idxOf_lt_length_iff.mpr (hmem i)⟩
  have hf : ∀ i, keys.get (f i) = names.get (i.cast hlen.symm) := fun i => List.idxOf_get _
  have hinj : Function.Injective f := fun i j hij => by
    have heq := (hf i).symm.trans ((congrArg keys.get hij).trans (hf j))
    exact Fin.cast_injective _ ((hperm.nodup_iff.mpr hnodup).injective_get heq)
  refine ⟨Function.update (fun _ => 1) keys.length (Equiv.ofBijective f
    (Finite.injective_iff_bijective.mp hinj)), fun d hd => ?_⟩
  rw [Draw.shuffle, hd, Function.update_self]
  refine List.ext_get (by rw [List.length_ofFn, hlen]) (fun i h h' => ?_)
  rw [List.get_ofFn]
  exact hf _

/-- Names of steps can be put in front. -/
theorem exists_fronts {runID : UUID} {v : Db} {l : List Step} {b : Step} (hb : Base v)
    (hl : ∀ t ∈ b :: l, t ∈ v.steps ∧ t.workflowRunID = runID) (hnodup : (b :: l).Nodup) :
    ∃ σ : (n : ℕ) → Equiv.Perm (Fin n), ∀ d : Draw, d.order = σ → ∀ keys : List String,
      keys.Pairwise (· < ·) → Ranges runID v keys → Fronts l b (d.shuffle keys) := by
  by_cases hkeys : ∃ keys : List String, keys.Pairwise (· < ·) ∧ Ranges runID v keys
  · obtain ⟨keys, hsorted, hranges⟩ := hkeys
    have hfirst : ((b :: l.reverse).map Step.stepName).Nodup := by
      have hrev : (b :: l.reverse).Nodup := ((List.reverse_perm l).cons b).nodup_iff.mpr hnodup
      refine hrev.map_on (fun x hx y hy hname => ?_)
      obtain ⟨hx, hxrun⟩ := hl x (((List.reverse_perm l).cons b).mem_iff.mp hx)
      obtain ⟨hy, hyrun⟩ := hl y (((List.reverse_perm l).cons b).mem_iff.mp hy)
      exact hb.graph.name_unique hy hx (hxrun.trans hyrun.symm) hname
    have hkeysNodup : keys.Nodup := hsorted.imp (fun h => ne_of_lt h)
    have hsub : (b :: l.reverse).map Step.stepName ⊆ keys := by
      intro x hx
      obtain ⟨t, ht, rfl⟩ := List.mem_map.mp hx
      obtain ⟨ht, hrun⟩ := hl t (((List.reverse_perm l).cons b).mem_iff.mp ht)
      exact (hranges _).mpr ⟨t, ht, hrun, rfl⟩
    have hperm := List.subperm_append_diff_self_of_count_le
      (fun x _ => (List.subperm_of_subset hfirst hsub).count_le x)
    obtain ⟨σ, hσ⟩ := exists_shuffle hperm hkeysNodup
    refine ⟨σ, fun d hd keys' hsorted' hranges' => ?_⟩
    obtain rfl : keys' = keys := List.Perm.eq_of_pairwise' hsorted' hsorted
      ((List.perm_ext_iff_of_nodup (hsorted'.imp (fun h => ne_of_lt h)) hkeysNodup).mpr
        (fun x => (hranges' x).trans (hranges x).symm))
    refine ⟨_, hσ d hd, fun x hx hmem => (hkeysNodup.mem_sdiff_iff.mp hmem).2 ?_⟩
    exact List.mem_map_of_mem (((List.reverse_perm l).cons b).mem_iff.mpr hx)
  · exact ⟨fun _ => 1, fun _ _ keys hsorted hranges => absurd ⟨keys, hsorted, hranges⟩ hkeys⟩

end Orchestrator
