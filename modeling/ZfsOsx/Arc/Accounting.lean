import ZfsOsx.Arc.State

/-!
# The ARC counters are the sums of what the headers count

`ArcInv` says what each list and counter of each state holds, from the
headers alone. `ArcInv.of_update` is the one argument every function goes
through: a function that changes one header, moves it between the lists
where it belongs and adds to each counter what the header counts there now
less what it counted before keeps `ArcInv`.
-/
namespace ZfsOsx.Arc

/-! ## What a header counts -/

/-- What a header counts in its state: `b_size` in a ghost state and
`b_size * b_datacnt` in the others. -/
@[grind] def ArcBufHdr.stateSize (h : ArcBufHdr) : ℤ := if h.state.ghost then h.size else h.size * h.datacnt

/-- What the header counts in `arcs_size` of `s`. -/
@[grind] def ArcBufHdr.sizeIn (h : ArcBufHdr) (s : ArcState) : ℤ := if s = h.state then h.stateSize else 0

/-- What the header counts in `arcs_lsize[t]` of `s`. -/
@[grind] def ArcBufHdr.lsizeIn (h : ArcBufHdr) (s : ArcState) (t : ArcBufContents) : ℤ :=
  if h.OnList s t then h.stateSize else 0

theorem ArcBufHdr.stateSize_nonneg (h : ArcBufHdr) : 0 ≤ h.stateSize := by
  unfold stateSize
  split
  · exact Int.natCast_nonneg _
  · exact Int.mul_nonneg (Int.natCast_nonneg _) (Int.natCast_nonneg _)

section Inv

variable {H : Type*} [DecidableEq H] [Fintype H]

/-- The ARC accounting invariant: every list is the set of the headers that
belong on it, each counter is the sum of what the headers count in it, and
ghost headers hold no data. -/
structure ArcInv (arc : ArcCache H) : Prop where
  nodup : ∀ s t, (arc.list s t).Nodup
  mem_list : ∀ s t ab, ab ∈ arc.list s t ↔ (arc.hdr ab).OnList s t
  lsize : ∀ s t, arc.lsize s t = ∑ ab, (arc.hdr ab).lsizeIn s t
  size : ∀ s, arc.size s = ∑ ab, (arc.hdr ab).sizeIn s
  ghost_datacnt : ∀ ab, (arc.hdr ab).state.ghost → (arc.hdr ab).datacnt = 0

/-- The lists of `arc` with `ab` on the one where `h` belongs, at its head,
and on no other. -/
@[grind] def ArcCache.relist (arc : ArcCache H) (ab : H) (h : ArcBufHdr) (s : ArcState)
    (t : ArcBufContents) : List H :=
  if h.OnList s t then ab :: (arc.list s t).erase ab else (arc.list s t).erase ab

variable {arc arc' : ArcCache H}

/-- A function that changes only the header `ab`, leaves it on the lists
where it now belongs, and moves each counter by what `ab` counts in it now
less what it counted before, keeps the invariant. -/
theorem ArcInv.of_update (h : ArcInv arc) (ab : H)
    (hhdr : ∀ x, x ≠ ab → arc'.hdr x = arc.hdr x)
    (hlist : ∀ s t, (arc'.list s t).Perm (arc.relist ab (arc'.hdr ab) s t))
    (hlsize : ∀ s t, arc'.lsize s t =
      arc.lsize s t + ((arc'.hdr ab).lsizeIn s t - (arc.hdr ab).lsizeIn s t))
    (hsize : ∀ s, arc'.size s = arc.size s + ((arc'.hdr ab).sizeIn s - (arc.hdr ab).sizeIn s))
    (hghost : (arc'.hdr ab).state.ghost → (arc'.hdr ab).datacnt = 0) : ArcInv arc' := by
  -- a sum over the headers moves by what `ab` adds to it
  have hsum : ∀ g : ArcBufHdr → ℤ,
      ∑ x, g (arc'.hdr x) = ∑ x, g (arc.hdr x) + (g (arc'.hdr ab) - g (arc.hdr ab)) := by
    intro g
    have hfun : (fun x => g (arc'.hdr x)) =
        Function.update (fun x => g (arc.hdr x)) ab (g (arc'.hdr ab)) := by
      funext x
      by_cases hx : x = ab
      · subst hx
        rw [Function.update_self]
      · rw [Function.update_of_ne hx, hhdr x hx]
    rw [hfun, RankedForest.sum_update_univ]
  have hrelist : ∀ s t, (arc.relist ab (arc'.hdr ab) s t).Nodup ∧
      ∀ x, x ∈ arc.relist ab (arc'.hdr ab) s t ↔ (arc'.hdr x).OnList s t := by
    intro s t
    have hnd := (h.nodup s t).erase ab
    have hout := (h.nodup s t).not_mem_erase (a := ab)
    unfold ArcCache.relist
    split_ifs with hon
    · refine ⟨List.nodup_cons.2 ⟨hout, hnd⟩, fun x => ?_⟩
      by_cases hx : x = ab
      · subst hx
        simp [hon]
      · rw [List.mem_cons, (h.nodup s t).mem_erase_iff, h.mem_list, hhdr x hx]
        simp [hx]
    · refine ⟨hnd, fun x => ?_⟩
      by_cases hx : x = ab
      · subst hx
        simp [hon, hout]
      · rw [(h.nodup s t).mem_erase_iff, h.mem_list, hhdr x hx]
        simp [hx]
  refine ⟨fun s t => (hlist s t).nodup_iff.2 (hrelist s t).1,
    fun s t x => (hlist s t).mem_iff.trans ((hrelist s t).2 x), fun s t => ?_, fun s => ?_, ?_⟩
  · rw [hlsize, h.lsize, hsum fun y => y.lsizeIn s t]
  · rw [hsize, h.size, hsum fun y => y.sizeIn s]
  · intro x
    by_cases hx : x = ab
    · subst hx
      exact hghost
    · rw [hhdr x hx]
      exact h.ghost_datacnt x

/-- A list the header stays on, or stays off, is the same set. -/
theorem ArcInv.perm_relist (h : ArcInv arc) (ab : H) {hdr : ArcBufHdr} (s : ArcState)
    (t : ArcBufContents) (hon : hdr.OnList s t ↔ (arc.hdr ab).OnList s t) :
    (arc.list s t).Perm (arc.relist ab hdr s t) := by
  unfold ArcCache.relist
  split_ifs with hnew
  · exact List.perm_cons_erase ((h.mem_list s t ab).2 (hon.1 hnew))
  · rw [List.erase_of_not_mem fun hm => hnew (hon.2 ((h.mem_list s t ab).1 hm))]

/-- Under the invariant `list_link_active` says that the header is on the
list of its own state and type. -/
theorem ArcInv.onList_iff_linked (h : ArcInv arc) (ab : H) (s : ArcState) (t : ArcBufContents) :
    (arc.hdr ab).OnList s t ↔
      arc.linked ab ∧ s = (arc.hdr ab).state ∧ t = (arc.hdr ab).type := by
  constructor
  · intro hon
    exact ⟨⟨s, t, (h.mem_list s t ab).2 hon⟩, hon.2.2⟩
  · rintro ⟨⟨s', t', hm⟩, rfl, rfl⟩
    obtain ⟨hr, ha, rfl, rfl⟩ := (h.mem_list s' t' ab).1 hm
    exact ⟨hr, ha, rfl, rfl⟩

/-- A header that a step leaves alone stays on the lists it was on. -/
theorem ArcInv.mem_list_congr (h : ArcInv arc) (h' : ArcInv arc') {x : H}
    (hx : arc'.hdr x = arc.hdr x) (s : ArcState) (t : ArcBufContents) :
    x ∈ arc'.list s t ↔ x ∈ arc.list s t := by
  rw [h'.mem_list, h.mem_list, hx]

theorem ArcInv.not_ghost_of_datacnt (h : ArcInv arc) {ab : H} (hd : 0 < (arc.hdr ab).datacnt) :
    (arc.hdr ab).state.ghost = false :=
  Bool.eq_false_iff.2 fun hg => by
    have := h.ghost_datacnt ab hg
    omega

end Inv

/-! ## Headers -/

section Hdr

variable {h h' : ArcBufHdr} {s : ArcState} {t : ArcBufContents}

/-- A referenced header is on no list. -/
theorem ArcBufHdr.not_onList_of_refcnt (hr : h.refcnt ≠ 0) : ¬h.OnList s t :=
  fun hon => hr hon.1

/-- An unreferenced header outside `arc_anon` is on the list of its state and
type and on no other. -/
theorem ArcBufHdr.onList_iff (hr : h.refcnt = 0) (ha : h.state ≠ .anon) :
    h.OnList s t ↔ s = h.state ∧ t = h.type := by
  simp [OnList, hr, ha]

theorem ArcBufHdr.lsizeIn_of_not_onList (hon : ¬h.OnList s t) : h.lsizeIn s t = 0 :=
  if_neg hon

theorem ArcBufHdr.stateSize_of_ghost (hg : h.state.ghost) : h.stateSize = h.size := if_pos hg

theorem ArcBufHdr.stateSize_of_not_ghost (hg : h.state.ghost = false) :
    h.stateSize = h.size * h.datacnt := by
  simp [stateSize, hg]

/-- Headers in the same state that count the same there count the same in
every `arcs_size`. -/
theorem ArcBufHdr.sizeIn_congr (hs : h'.state = h.state) (hz : h'.stateSize = h.stateSize) :
    h'.sizeIn = h.sizeIn := by
  funext s
  simp [sizeIn, hs, hz]

/-- ... and, if they also agree on the lists, in every `arcs_lsize`. -/
theorem ArcBufHdr.lsizeIn_congr (hz : h'.stateSize = h.stateSize)
    (hon : ∀ s t, h'.OnList s t ↔ h.OnList s t) : h'.lsizeIn = h.lsizeIn := by
  funext s t
  simp only [lsizeIn, hz, hon]

end Hdr

/-! ## Each function keeps the invariant -/

section Steps

variable {H : Type*} [DecidableEq H] [Fintype H] {arc : ArcCache H}

/-- A header whose fields change and whose lists and counts do not. -/
theorem ArcInv.setHdr (h : ArcInv arc) (ab : H) {hdr : ArcBufHdr}
    (hs : hdr.state = (arc.hdr ab).state) (hz : hdr.stateSize = (arc.hdr ab).stateSize)
    (hd : hdr.datacnt = (arc.hdr ab).datacnt)
    (hon : ∀ s t, hdr.OnList s t ↔ (arc.hdr ab).OnList s t) : ArcInv (arc.setHdr ab hdr) := by
  refine h.of_update ab (fun x hx => by simp [Function.update_of_ne hx]) (fun s t => ?_)
    (fun s t => ?_) (fun s => ?_) fun hg => ?_
  · simpa using h.perm_relist ab s t (hon s t)
  · simp [ArcBufHdr.lsizeIn_congr hz hon]
  · simp [ArcBufHdr.sizeIn_congr hs hz]
  · simp only [ArcCache.setHdr_hdr, Function.update_self] at hg ⊢
    rw [hd]
    exact h.ghost_datacnt ab (hs ▸ hg)

theorem ArcInv.addReference (h : ArcInv arc) (ab : H) : ArcInv (addReference arc ab) := by
  obtain ⟨hdr, hhdr⟩ : ∃ hdr, arc.hdr ab = hdr := ⟨_, rfl⟩
  have hmem : ∀ s t, ab ∈ arc.list s t ↔ hdr.OnList s t := fun s t => hhdr ▸ h.mem_list s t ab
  dsimp only [ZfsOsx.Arc.addReference]
  rw [hhdr]
  by_cases hfirst : hdr.refcnt + 1 = 1 ∧ hdr.state ≠ .anon
  · -- the first reference: `ab` leaves the list of its state and type
    rw [if_pos hfirst]
    obtain ⟨h1, ha⟩ := hfirst
    have hon := fun s t => ArcBufHdr.onList_iff (s := s) (t := t) (show hdr.refcnt = 0 by omega) ha
    have hoff : ∀ s t, ¬({ hdr with refcnt := hdr.refcnt + 1, prefetch := false } : ArcBufHdr).OnList s t :=
      fun s t => ArcBufHdr.not_onList_of_refcnt (by simp)
    refine h.of_update ab (fun x hx => by simp [Function.update_of_ne hx]) (fun s t => ?_)
      (fun s t => ?_) (fun s => ?_) fun hg => ?_
    · simp only [ArcCache.relist, ArcCache.setHdr_hdr, ArcCache.addLsize_hdr,
        ArcCache.modList_hdr, Function.update_self, if_neg (hoff s t), ArcCache.setHdr_list,
        ArcCache.addLsize_list, ArcCache.modList_list]
      split_ifs with hst
      · obtain ⟨rfl, rfl⟩ := hst
        exact List.Perm.refl _
      · -- `ab` was on no other list
        rw [List.erase_of_not_mem fun hm => hst ((hon s t).1 ((hmem s t).1 hm))]
    · simp only [ArcCache.setHdr_lsize, ArcCache.addLsize_lsize, ArcCache.modList_lsize,
        ArcCache.setHdr_hdr, Function.update_self, hhdr,
        ArcBufHdr.lsizeIn_of_not_onList (hoff s t)]
      have hdelta : (if hdr.state.ghost then (hdr.size : ℤ) else hdr.size * hdr.datacnt) =
          hdr.stateSize := rfl
      simp only [ArcBufHdr.lsizeIn, hon, hdelta]
      split_ifs <;> simp
    · have hsz : ({ hdr with refcnt := hdr.refcnt + 1, prefetch := false } : ArcBufHdr).sizeIn =
          hdr.sizeIn := ArcBufHdr.sizeIn_congr rfl rfl
      simp [hhdr, hsz]
    · simp only [ArcCache.setHdr_hdr, Function.update_self] at hg ⊢
      exact hhdr ▸ h.ghost_datacnt ab (hhdr ▸ hg)
  · -- a further reference: `ab` was on no list and stays off them
    rw [if_neg hfirst]
    have hoff : ∀ s t, ¬hdr.OnList s t := fun s t hon => hfirst ⟨by rw [hon.1], hon.2.1⟩
    exact h.setHdr ab (by rw [hhdr]) (by rw [hhdr]; rfl) (by rw [hhdr]) fun s t =>
      iff_of_false (ArcBufHdr.not_onList_of_refcnt (by simp)) (hhdr ▸ hoff s t)

/-- `arc_change_state` of a header whose fields were just written, as the
ghost hit of `arc_read_nolock` writes `b_datacnt` before `arc_access`: the
header takes off what it counted before the write and adds what it counts
in its new state. -/
theorem ArcInv.changeState_setHdr (h : ArcInv arc) {ab : H} {hdr : ArcBufHdr}
    {newState : ArcState} (hne : newState ≠ hdr.state) (hs : hdr.state = (arc.hdr ab).state)
    (hon : ∀ s t, hdr.OnList s t ↔ (arc.hdr ab).OnList s t)
    (hfrom : hdr.fromDelta = (arc.hdr ab).stateSize)
    (hto : hdr.toDelta newState = ({ hdr with state := newState } : ArcBufHdr).stateSize)
    (hghost : newState.ghost → hdr.datacnt = 0) :
    ArcInv (arcChangeState (arc.setHdr ab hdr) newState ab) := by
  have hmem : ∀ s t, ab ∈ arc.list s t ↔ hdr.OnList s t :=
    fun s t => (h.mem_list s t ab).trans (hon s t).symm
  refine h.of_update ab
    (fun x hx => by simp [arcChangeState_hdr, Function.update_of_ne hx]) (fun s t => ?_)
    (fun s t => ?_) (fun s => ?_) fun hg => ?_
  · simp only [arcChangeState_list, arcChangeState_hdr, ArcCache.setHdr_hdr,
      ArcCache.setHdr_list, Function.update_self, ArcCache.relist]
    -- `ab` leaves the list it was on, if any, and joins the one it now belongs on
    split_ifs with hnew hold hold
    · exact absurd (hnew.2.2.1.symm.trans hold.2.2.1) hne
    · rw [List.erase_of_not_mem fun hm => hold ((hmem s t).1 hm)]
    · exact List.Perm.refl _
    · rw [List.erase_of_not_mem fun hm => hold ((hmem s t).1 hm)]
  · simp only [arcChangeState_lsize, arcChangeState_hdr, ArcCache.setHdr_hdr,
      ArcCache.setHdr_lsize, Function.update_self, hfrom, hto, ArcBufHdr.lsizeIn, hon]
    split_ifs <;> omega
  · simp only [arcChangeState_size, arcChangeState_hdr, ArcCache.setHdr_hdr,
      ArcCache.setHdr_size, Function.update_self, hfrom, hto, ArcBufHdr.sizeIn, hs]
    split_ifs <;> omega
  · simp only [arcChangeState_hdr, ArcCache.setHdr_hdr, Function.update_self] at hg ⊢
    exact hghost hg

/-- `arc_change_state` under its assertions: a referenced header holds data,
and a header that holds data goes to no ghost state. -/
theorem ArcInv.changeState (h : ArcInv arc) {ab : H} {newState : ArcState}
    (hne : newState ≠ (arc.hdr ab).state)
    (hdata : (arc.hdr ab).refcnt = 0 ∨ 0 < (arc.hdr ab).datacnt)
    (hghost : (arc.hdr ab).datacnt = 0 ∨ newState.ghost = false) :
    ArcInv (arcChangeState arc newState ab) := by
  obtain ⟨hdr, hhdr⟩ : ∃ hdr, arc.hdr ab = hdr := ⟨_, rfl⟩
  rw [hhdr] at hne hdata hghost
  -- the deltas are what the header counts in its old and in its new state
  have hfrom : hdr.fromDelta = hdr.stateSize := by
    unfold ArcBufHdr.fromDelta ArcBufHdr.stateSize
    by_cases hg : hdr.state.ghost
    · have hd : hdr.datacnt = 0 := hhdr ▸ h.ghost_datacnt ab (hhdr ▸ hg)
      have hr : hdr.refcnt = 0 := by omega
      simp [hr, hg, hd]
    · simp [hg, mul_comm]
  have hto : hdr.toDelta newState = ({ hdr with state := newState } : ArcBufHdr).stateSize := by
    unfold ArcBufHdr.toDelta ArcBufHdr.stateSize
    by_cases hg : newState.ghost
    · have hd : hdr.datacnt = 0 := by simpa [hg] using hghost
      have hr : hdr.refcnt = 0 := by omega
      simp [hr, hg]
    · simp [hg, mul_comm]
  have hinv : ArcInv (arcChangeState (arc.setHdr ab hdr) newState ab) :=
    h.changeState_setHdr hne (by rw [hhdr]) (fun s t => by rw [hhdr])
    (by rw [hhdr]; exact hfrom) hto fun hg => by simpa [hg] using hghost
  rwa [← hhdr, ArcCache.setHdr_self] at hinv

/-- `remove_reference` of a referenced header in a state that holds data;
the last reference puts it back on its list. -/
theorem ArcInv.removeReference (h : ArcInv arc) {ab : H} (hr : 0 < (arc.hdr ab).refcnt)
    (hg : (arc.hdr ab).state.ghost = false) : ArcInv (removeReference arc ab).1 := by
  obtain ⟨hdr, hhdr⟩ : ∃ hdr, arc.hdr ab = hdr := ⟨_, rfl⟩
  rw [hhdr] at hr hg
  have hoff : ∀ s t, ¬hdr.OnList s t := fun s t => ArcBufHdr.not_onList_of_refcnt (by omega)
  have hout : ∀ s t, ab ∉ arc.list s t := fun s t hm => hoff s t (hhdr ▸ (h.mem_list s t ab).1 hm)
  dsimp only [ZfsOsx.Arc.removeReference]
  rw [hhdr]
  by_cases hlast : hdr.refcnt - 1 = 0 ∧ hdr.state ≠ .anon
  · -- the last reference: `ab` goes back to the head of the list of its state and type
    rw [if_pos hlast]
    have hon := fun s t => ArcBufHdr.onList_iff (h := { hdr with refcnt := hdr.refcnt - 1 })
      (s := s) (t := t) hlast.1 hlast.2
    refine h.of_update ab (fun x hx => by simp [Function.update_of_ne hx]) (fun s t => ?_)
      (fun s t => ?_) (fun s => ?_) fun hg' => ?_
    · simp only [ArcCache.relist, ArcCache.addLsize_hdr, ArcCache.modList_hdr,
        ArcCache.setHdr_hdr, Function.update_self, ArcCache.addLsize_list, ArcCache.modList_list,
        ArcCache.setHdr_list, List.erase_of_not_mem (hout s t), hon]
      exact List.Perm.refl _
    · have hsz := ArcBufHdr.stateSize_of_not_ghost (h := { hdr with refcnt := hdr.refcnt - 1 }) hg
      rw [hhdr, ArcBufHdr.lsizeIn_of_not_onList (hoff s t)]
      simp only [ArcCache.addLsize_lsize, ArcCache.modList_lsize, ArcCache.setHdr_lsize,
        ArcCache.addLsize_hdr, ArcCache.modList_hdr, ArcCache.setHdr_hdr, Function.update_self,
        ArcBufHdr.lsizeIn, hon, hsz]
      split_ifs <;> simp
    · have hsz : ({ hdr with refcnt := hdr.refcnt - 1 } : ArcBufHdr).sizeIn = hdr.sizeIn :=
        ArcBufHdr.sizeIn_congr rfl rfl
      simp [hhdr, hsz]
    · simp only [ArcCache.addLsize_hdr, ArcCache.modList_hdr, ArcCache.setHdr_hdr,
        Function.update_self] at hg'
      simp [hg] at hg'
  · -- a reference is left: `ab` stays off the lists
    rw [if_neg hlast]
    exact h.setHdr ab (by rw [hhdr]) (by rw [hhdr]; rfl) (by rw [hhdr]) fun s t =>
      iff_of_false (fun hon => hlast ⟨hon.1, hon.2.1⟩) (hhdr ▸ hoff s t)

/-- The flag `ARC_PREFETCH` written. -/
theorem ArcInv.setPrefetch (h : ArcInv arc) (ab : H) (p : Bool) :
    ArcInv (arc.setHdr ab { arc.hdr ab with prefetch := p }) :=
  h.setHdr ab rfl rfl rfl fun _ _ => Iff.rfl

/-- `arc_access` of a header that, if it is referenced, holds data. -/
theorem ArcInv.access (h : ArcInv arc) {ab : H}
    (hdata : (arc.hdr ab).refcnt = 0 ∨ 0 < (arc.hdr ab).datacnt) (aged : Bool) :
    ArcInv (arcAccess arc ab aged) := by
  -- every move `arc_access` makes is to `arc_mru` or `arc_mfu`
  have hmove : ∀ {s : ArcState}, s.ghost = false → s ≠ (arc.hdr ab).state →
      ArcInv (arcChangeState arc s ab) :=
    fun hg hne => h.changeState hne hdata (Or.inr hg)
  have hp := h.setPrefetch ab false
  dsimp only at hp
  unfold arcAccess
  dsimp only
  cases hs : (arc.hdr ab).state
  all_goals dsimp only
  · exact hmove rfl (by simp [hs])
  · split_ifs
    · exact h
    · rwa [hs] at hp
    · exact hmove rfl (by simp [hs])
    · exact h
  · split_ifs
    · rw [hs] at hp
      exact hp.changeState (by simp) (by simpa using hdata) (Or.inr rfl)
    · exact hmove rfl (by simp [hs])
    · exact hmove rfl (by simp [hs])
  · exact h
  · split_ifs
    · exact hmove rfl (by simp [hs])
    · exact hmove rfl (by simp [hs])
  · exact hmove rfl (by simp [hs])

/-- A ghost header given its first buffer and moved to a state that holds
data: the ghost size it counted leaves with it. -/
theorem ArcInv.fill (h : ArcInv arc) {ab : H} {hdr : ArcBufHdr} {newState : ArcState}
    (hg : (arc.hdr ab).state.ghost) (hng : newState.ghost = false)
    (hs : hdr.state = (arc.hdr ab).state) (hz : hdr.size = (arc.hdr ab).size)
    (hd : hdr.datacnt = 1) (hon : ∀ s t, hdr.OnList s t ↔ (arc.hdr ab).OnList s t) :
    ArcInv (arcChangeState (arc.setHdr ab hdr) newState ab) := by
  have hne : newState ≠ hdr.state := fun he => by simp [he, hs, hg] at hng
  refine h.changeState_setHdr hne hs hon ?_ ?_ (by simp [hng])
  · simp [ArcBufHdr.fromDelta, ArcBufHdr.stateSize_of_ghost hg, hd, hz]
  · simp [ArcBufHdr.toDelta, ArcBufHdr.stateSize, hng, hd]

/-- `arc_access` once the ghost hit has given the header its buffer. -/
theorem ArcInv.accessFill (h : ArcInv arc) {ab : H} (hg : (arc.hdr ab).state.ghost)
    (aged : Bool) : ArcInv (arcAccess (arc.setHdr ab { arc.hdr ab with datacnt := 1 }) ab aged) := by
  have hfill : ∀ {newState : ArcState} (p : Bool), newState.ghost = false →
      ArcInv (arcChangeState (arc.setHdr ab { arc.hdr ab with datacnt := 1, prefetch := p })
        newState ab) :=
    fun _ hng => h.fill hg hng rfl rfl rfl fun _ _ => Iff.rfl
  unfold arcAccess
  simp only [ArcCache.setHdr_hdr, Function.update_self]
  cases hs : (arc.hdr ab).state
  all_goals simp only [hs, ArcState.ghost, Bool.false_eq_true] at hg hfill ⊢
  -- only the ghost states are left
  · split_ifs
    · simpa using hfill false rfl
    · exact hfill _ rfl
    · exact hfill _ rfl
  · split_ifs
    · exact hfill _ rfl
    · exact hfill _ rfl
  · exact hfill _ rfl

theorem addReference_hdr_state (arc : ArcCache H) (ab : H) :
    ((addReference arc ab).hdr ab).state = (arc.hdr ab).state := by
  unfold addReference
  dsimp only
  split_ifs <;> simp

/-- The ghost hit of `arc_read_nolock`. -/
theorem ArcInv.readGhost (h : ArcInv arc) {ab : H} (hg : (arc.hdr ab).state.ghost)
    (prefetch : Bool) : ArcInv (arcReadGhost arc ab prefetch) := by
  -- the reference, or the prefetch flag, comes first
  obtain ⟨arc₁, harc₁⟩ : ∃ arc₁, (if prefetch then arc.setHdr ab { arc.hdr ab with prefetch := true }
      else ZfsOsx.Arc.addReference arc ab) = arc₁ := ⟨_, rfl⟩
  have h₁ : ArcInv arc₁ ∧ (arc₁.hdr ab).state.ghost := by
    subst harc₁
    split_ifs
    · exact ⟨h.setPrefetch ab true, by simpa using hg⟩
    · exact ⟨h.addReference ab, by rw [addReference_hdr_state]; exact hg⟩
  unfold arcReadGhost
  dsimp only
  rw [harc₁, arcGetDataBuf_of_ghost _ _ (by simpa using h₁.2)]
  exact h₁.1.accessFill h₁.2 false

/-- `arc_get_data_buf` and the caller's `b_datacnt += 1` on a header in a
state that holds data. -/
theorem ArcInv.getDataBuf (h : ArcInv arc) {ab : H} {hdr : ArcBufHdr}
    (hg : (arc.hdr ab).state.ghost = false) (hs : hdr.state = (arc.hdr ab).state)
    (hz : hdr.size = (arc.hdr ab).size) (hd : hdr.datacnt = (arc.hdr ab).datacnt + 1)
    (hon : ∀ s t, hdr.OnList s t ↔ (arc.hdr ab).OnList s t) :
    ArcInv ((arcGetDataBuf arc ab).setHdr ab hdr) := by
  -- the header counts `b_size` more in its state, and on its list if it is on one
  have hsz : hdr.stateSize = (arc.hdr ab).stateSize + (arc.hdr ab).size := by
    rw [ArcBufHdr.stateSize_of_not_ghost (hs ▸ hg), ArcBufHdr.stateSize_of_not_ghost hg, hz, hd]
    push_cast
    rw [Int.mul_add, Int.mul_one]
  refine h.of_update ab (fun x hx => by simp [Function.update_of_ne hx]) (fun s t => ?_)
    (fun s t => ?_) (fun s => ?_) fun hg' => ?_
  · simpa using h.perm_relist ab s t (hon s t)
  · simp only [ArcCache.setHdr_lsize, arcGetDataBuf_lsize, ArcCache.setHdr_hdr,
      Function.update_self, ArcBufHdr.lsizeIn, hon, h.onList_iff_linked, hsz, hg, true_and]
    split_ifs <;> omega
  · simp only [ArcCache.setHdr_size, arcGetDataBuf_size, ArcCache.setHdr_hdr,
      Function.update_self, ArcBufHdr.sizeIn, hs, hsz, hg, true_and]
    split_ifs <;> omega
  · simp only [ArcCache.setHdr_hdr, Function.update_self, hs, hg] at hg'
    exact absurd hg' Bool.false_ne_true

/-- `arc_buf_clone` of a buffer that holds data. -/
theorem ArcInv.bufClone (h : ArcInv arc) {ab : H} (hd : 0 < (arc.hdr ab).datacnt) :
    ArcInv (arcBufClone arc ab) := by
  unfold arcBufClone
  simp only [arcGetDataBuf_hdr]
  exact h.getDataBuf (h.not_ghost_of_datacnt hd) rfl rfl rfl fun _ _ => Iff.rfl

/-- `arc_buf_alloc` on a free header: anonymous and with no buffer. -/
theorem ArcInv.bufAlloc (h : ArcInv arc) {ab : H} (hs : (arc.hdr ab).state = .anon)
    (hd : (arc.hdr ab).datacnt = 0) (spa size : ℕ) (type : ArcBufContents) :
    ArcInv (arcBufAlloc arc ab spa size type) := by
  -- anonymous headers are on no list
  have hanon : ∀ {hdr : ArcBufHdr} s t, hdr.state = .anon → ¬hdr.OnList s t :=
    fun _ _ hs' hon => hon.2.1 hs'
  -- a new size and type count nothing while the header holds no buffer
  have h₁ : ArcInv (arc.setHdr ab
      { arc.hdr ab with size, type, spa, state := .anon, prefetch := false, l2hdr := false }) :=
    h.setHdr ab hs.symm (by simp [ArcBufHdr.stateSize, hs, hd]) rfl
      fun s t => iff_of_false (hanon s t rfl) (hanon s t hs)
  unfold arcBufAlloc
  simp only [arcGetDataBuf_hdr]
  exact h₁.getDataBuf (by simp) (by simp) (by simp) (by simp [hd])
    fun s t => iff_of_false (hanon s t (by simp)) (hanon s t (by simp))

/-- `arc_buf_destroy` of a buffer that holds data. -/
theorem ArcInv.bufDestroy (h : ArcInv arc) {ab : H} (hd : 0 < (arc.hdr ab).datacnt) :
    ArcInv (arcBufDestroy arc ab true) := by
  have hg := h.not_ghost_of_datacnt hd
  -- the header counts `b_size` less in its state, and on its list if it is on one
  have hsz : ({ arc.hdr ab with datacnt := (arc.hdr ab).datacnt - 1 } : ArcBufHdr).stateSize =
      (arc.hdr ab).stateSize - (arc.hdr ab).size := by
    rw [ArcBufHdr.stateSize_of_not_ghost (h := { arc.hdr ab with datacnt := (arc.hdr ab).datacnt - 1 }) hg,
      ArcBufHdr.stateSize_of_not_ghost hg]
    dsimp only
    rw [Nat.cast_sub hd, Nat.cast_one, Int.mul_sub, Int.mul_one]
  have hon : ∀ s t, ({ arc.hdr ab with datacnt := (arc.hdr ab).datacnt - 1 } : ArcBufHdr).OnList s t ↔
      (arc.hdr ab).OnList s t := fun _ _ => Iff.rfl
  refine h.of_update ab (fun x hx => by rw [arcBufDestroy_hdr, Function.update_of_ne hx])
    (fun s t => ?_) (fun s t => ?_) (fun s => ?_) fun hg' => ?_
  · rw [arcBufDestroy_list, arcBufDestroy_hdr, Function.update_self]
    exact h.perm_relist ab s t (hon s t)
  · rw [arcBufDestroy_lsize, arcBufDestroy_hdr, Function.update_self]
    simp only [ArcBufHdr.lsizeIn, hon, hsz, h.onList_iff_linked]
    split_ifs <;> omega
  · rw [arcBufDestroy_size, arcBufDestroy_hdr, Function.update_self]
    simp only [ArcBufHdr.sizeIn, hsz]
    split_ifs <;> omega
  · rw [arcBufDestroy_hdr, Function.update_self] at hg'
    simp [hg] at hg'

/-- `arc_evict` destroys `k` of the header's buffers, each holding data. -/
theorem ArcInv.destroyBufs (h : ArcInv arc) {ab : H} {k : ℕ} (hk : k ≤ (arc.hdr ab).datacnt) :
    ArcInv (destroyBufs arc ab k) := by
  induction k with
  | zero => exact h
  | succ k ih =>
    have hd : 0 < ((ZfsOsx.Arc.destroyBufs arc ab k).hdr ab).datacnt := by
      rw [destroyBufs_hdr_self]
      dsimp only
      omega
    exact (ih (by omega)).bufDestroy hd

section Evict

variable (env : EvictEnv H) (spa : ℕ) (bytes : ℤ)

/-- `arc_evict` takes a header off the list of a state that holds data: once
its buffers are gone it goes to the ghost state. -/
theorem ArcInv.evictHdr (h : ArcInv arc) {ab : H} {S evictedState : ArcState}
    {T : ArcBufContents} (hS : S.ghost = false) (hes : evictedState.ghost)
    (hab : ab ∈ arc.list S T) {k : ℕ} (hk : k ≤ (arc.hdr ab).datacnt)
    (hd : ((ZfsOsx.Arc.destroyBufs arc ab k).hdr ab).datacnt = 0) :
    ArcInv (arcChangeState (ZfsOsx.Arc.destroyBufs arc ab k) evictedState ab) := by
  obtain ⟨hr, -, hSs, -⟩ := (h.mem_list S T ab).1 hab
  refine (h.destroyBufs hk).changeState ?_ (Or.inl ?_) (Or.inl hd)
  · rw [destroyBufs_hdr_self]
    intro he
    simp [he, ← hSs, hS] at hes
  · rw [destroyBufs_hdr_self]
    exact hr

/-- The loop of `arc_evict` keeps the invariant while every header left to
walk is on a list of a state that holds data. -/
theorem evictLoop_inv {S evictedState : ArcState} {T : ArcBufContents} (hS : S.ghost = false)
    (hes : evictedState.ghost) (type : ArcBufContents) (l : List H) :
    ∀ (arc : ArcCache H) (evicted : ℤ) (recycle : Bool), ArcInv arc → l.Nodup →
      (∀ x ∈ l, x ∈ arc.list S T) →
        ArcInv (arcEvictLoop env evictedState spa bytes type l (arc, evicted, recycle)).1 := by
  induction l with
  | nil => exact fun arc _ _ h _ _ => h
  | cons ab rest ih =>
    intro arc evicted recycle h hnd hl
    have hab : ab ∉ rest := (List.nodup_cons.1 hnd).1
    -- the walk goes on with the headers it has not reached where they were
    have hcont : ∀ arc', ArcInv arc' → (∀ x, x ≠ ab → arc'.hdr x = arc.hdr x) →
        ∀ evicted recycle,
          ArcInv (arcEvictLoop env evictedState spa bytes type rest (arc', evicted, recycle)).1 :=
      fun arc' h' hfr evicted recycle => ih arc' evicted recycle h' (List.nodup_cons.1 hnd).2
        fun x hx => (h.mem_list_congr h' (hfr x (ne_of_mem_of_not_mem hx hab)) S T).2
          (hl x (List.mem_cons_of_mem ab hx))
    have hk := min_le_right (env.bufLocks ab) (arc.hdr ab).datacnt
    have hfr : ∀ x, x ≠ ab → (ZfsOsx.Arc.destroyBufs arc ab
        (min (env.bufLocks ab) (arc.hdr ab).datacnt)).hdr x = arc.hdr x :=
      fun x hx => destroyBufs_hdr_of_ne arc hx _
    have hev := h.evictHdr hS hes (hl ab (by simp)) hk
    have hevfr : ∀ x, x ≠ ab → (arcChangeState (ZfsOsx.Arc.destroyBufs arc ab
        (min (env.bufLocks ab) (arc.hdr ab).datacnt)) evictedState ab).hdr x = arc.hdr x :=
      fun x hx => by rw [arcChangeState_hdr, Function.update_of_ne hx, hfr x hx]
    simp only [arcEvictLoop]
    -- a header skipped, looked past or not locked; then one evicted, with enough
    -- bytes or not, and with all its buffers gone or not
    split_ifs
    · exact hcont arc h (fun _ _ => rfl) _ _
    · exact hcont arc h (fun _ _ => rfl) _ _
    · exact hev ‹_›
    · exact h.destroyBufs hk
    · exact hcont _ (hev ‹_›) hevfr _ _
    · exact hcont _ (h.destroyBufs hk) hfr _ _
    · exact hcont arc h (fun _ _ => rfl) _ _

/-- `arc_evict_ghost` takes a header off a list of `arc_mru_ghost` or
`arc_mfu_ghost` to `arc_l2c_only` or `arc_anon`. -/
theorem ArcInv.evictGhostHdr (h : ArcInv arc) {ab : H} {S : ArcState} {T : ArcBufContents}
    (hS : S = .mruGhost ∨ S = .mfuGhost) (hab : ab ∈ arc.list S T) :
    ArcInv (arcChangeState arc (if (arc.hdr ab).l2hdr then .l2cOnly else .anon) ab) := by
  obtain ⟨hr, -, hSs, -⟩ := (h.mem_list S T ab).1 hab
  have hg : (arc.hdr ab).state.ghost := by
    rw [← hSs]
    rcases hS with rfl | rfl <;> rfl
  refine h.changeState ?_ (Or.inl hr) (Or.inl (h.ghost_datacnt ab hg))
  rw [← hSs]
  rcases hS with rfl | rfl <;> split_ifs <;> decide

/-- The loop of `arc_evict_ghost` keeps the invariant while every header
left to walk is on a list of `arc_mru_ghost` or `arc_mfu_ghost`. -/
theorem evictGhostLoop_inv {S : ArcState} {T : ArcBufContents}
    (hS : S = .mruGhost ∨ S = .mfuGhost) (l : List H) :
    ∀ (arc : ArcCache H) (deleted : ℤ), ArcInv arc → l.Nodup → (∀ x ∈ l, x ∈ arc.list S T) →
      ArcInv (arcEvictGhostLoop env spa bytes l (arc, deleted)).1 := by
  induction l with
  | nil => exact fun arc _ h _ _ => h
  | cons ab rest ih =>
    intro arc deleted h hnd hl
    have hab : ab ∉ rest := (List.nodup_cons.1 hnd).1
    have hcont : ∀ arc', ArcInv arc' → (∀ x, x ≠ ab → arc'.hdr x = arc.hdr x) → ∀ deleted,
        ArcInv (arcEvictGhostLoop env spa bytes rest (arc', deleted)).1 :=
      fun arc' h' hfr deleted => ih arc' deleted h' (List.nodup_cons.1 hnd).2
        fun x hx => (h.mem_list_congr h' (hfr x (ne_of_mem_of_not_mem hx hab)) S T).2
          (hl x (List.mem_cons_of_mem ab hx))
    -- where the header goes does not split the walk
    obtain ⟨ns, hns⟩ : ∃ ns, (if (arc.hdr ab).l2hdr then ArcState.l2cOnly else .anon) = ns :=
      ⟨_, rfl⟩
    have hev := h.evictGhostHdr hS (hl ab (by simp))
    rw [hns] at hev
    simp only [arcEvictGhostLoop, hns]
    -- a header skipped, a marker, a header the caller holds, one evicted with
    -- enough bytes or not, and one not locked
    split_ifs
    · exact hcont arc h (fun _ _ => rfl) _
    · exact hcont arc h (fun _ _ => rfl) _
    · exact hcont arc h (fun _ _ => rfl) _
    · exact hev
    · exact hcont _ hev (fun x hx => by rw [arcChangeState_hdr, Function.update_of_ne hx]) _
    · exact hcont arc h (fun _ _ => rfl) _

/-- `arc_evict_ghost` of `arc_mru_ghost` or `arc_mfu_ghost`. -/
theorem ArcInv.evictGhost (h : ArcInv arc) {S : ArcState} (hS : S = .mruGhost ∨ S = .mfuGhost) :
    ArcInv (arcEvictGhost arc env S spa bytes) := by
  -- each list is walked from its tail as it is when the walk starts
  have hwalk : ∀ {arc' : ArcCache H} (T : ArcBufContents) (deleted : ℤ), ArcInv arc' →
      ArcInv (arcEvictGhostLoop env spa bytes (arc'.list S T).reverse (arc', deleted)).1 :=
    fun T deleted h' => evictGhostLoop_inv env spa bytes hS _ _ deleted h'
      (List.nodup_reverse.2 (h'.nodup S T)) fun _ hx => List.mem_reverse.1 hx
  unfold arcEvictGhost
  rcases hX : arcEvictGhostLoop env spa bytes (arc.list S .data).reverse (arc, 0) with
    ⟨arc', deleted, _⟩
  have h' : ArcInv arc' := by simpa [hX] using hwalk .data 0 h
  dsimp only
  split_ifs
  · exact hwalk .metadata deleted h'
  · exact h'

/-- `arc_evict` of a state that holds data. -/
theorem ArcInv.evict (h : ArcInv arc) {S : ArcState} (hS : S.ghost = false) (recycle : Bool)
    (type : ArcBufContents) (noGrow : Bool) (arcC : ℤ) :
    ArcInv (arcEvict arc env S spa bytes recycle type noGrow arcC).1 := by
  have hes : (if S = .mru then ArcState.mruGhost else .mfuGhost).ghost := by
    split_ifs <;> rfl
  unfold arcEvict
  dsimp only
  rcases hX : arcEvictLoop env (if S = .mru then ArcState.mruGhost else .mfuGhost) spa bytes type
    (arc.list S type).reverse (arc, 0, recycle) with ⟨arc', evicted, recycleLeft⟩
  have h' : ArcInv arc' := by
    simpa [hX] using evictLoop_inv env spa bytes hS hes type _ arc 0 recycle h
      (List.nodup_reverse.2 (h.nodup S type)) fun _ hx => List.mem_reverse.1 hx
  dsimp only
  -- the ghost states are cut back when they outgrow `arc_c`
  split_ifs
  · exact h'.evictGhost env 0 _ (Or.inl rfl)
  · exact h'.evictGhost env 0 _ (Or.inr rfl)
  · exact h'
  · exact h'

end Evict

end Steps

end ZfsOsx.Arc
