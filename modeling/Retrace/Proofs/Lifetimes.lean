import Retrace.Proofs.History

/-! Lifetimes. Every place has one invocation, open or ended. Of two invocations, the one that
opened first either ended before the other opened, and something as shallow as it opened since, or
the other is deeper and runs inside it. That is so for every history whose time stamps do not
decrease; entries are apart from each other if the stamps are. -/

namespace Retrace

/-- From when to when an invocation is open. One that has not ended has no exit. -/
structure Lifetime where
  eoi : Nat
  ess : Nat
  entryTime : Int
  exitTime? : Option Int
  deriving DecidableEq, Repr

namespace Lifetime
open scoped List

/-- Did the first one end before the second one opened, and did something as shallow open since? -/
def Precedes (known : List Lifetime) (x y : Lifetime) : Prop :=
  (∃ time, x.exitTime? = some time ∧ time ≤ y.entryTime) ∧
    ∃ z ∈ known, x.eoi < z.eoi ∧ z.eoi ≤ y.eoi ∧ z.ess ≤ x.ess

/-- Is the second one deeper, and over when the first one is? -/
def Encloses (x y : Lifetime) : Prop :=
  x.ess < y.ess ∧
    ∀ time, x.exitTime? = some time → ∃ inner, y.exitTime? = some inner ∧ inner ≤ time

/-- Are these the lifetimes up to some time, one for each place, with entries that are a pause
apart? The next thing does not happen before `soon`. -/
structure Laminar (pause : Nat) (soon : Int) (n : Nat) (known : List Lifetime) : Prop where
  places : known.map eoi ~ List.range n
  past : ∀ x ∈ known, x.entryTime + pause ≤ soon ∧
    ∀ time, x.exitTime? = some time → x.entryTime ≤ time ∧ time ≤ soon
  paired : ∀ x ∈ known, ∀ y ∈ known, x.eoi < y.eoi →
    x.entryTime + pause ≤ y.entryTime ∧ (Precedes known x y ∨ Encloses x y)

theorem Precedes.mono {known others : List Lifetime} {x y : Lifetime}
    (h : Precedes known x y)
    (hsub : ∀ z ∈ known, ∃ w ∈ others, w.eoi = z.eoi ∧ w.ess = z.ess) : Precedes others x y := by
  obtain ⟨hexit, z, hz, hafter, hupto, hshallow⟩ := h
  obtain ⟨w, hw, heoi, hess⟩ := hsub z hz
  exact ⟨hexit, w, hw, by omega, by omega, by omega⟩

/-- What ran before what stays when an invocation keeps its place and its depth. -/
theorem Precedes.replaced {known : List Lifetime} {old new x y : Lifetime}
    (h : Precedes (old :: known) x y) (heoi : new.eoi = old.eoi) (hess : new.ess = old.ess) :
    Precedes (new :: known) x y := by
  refine h.mono fun z hz => ?_
  rcases List.mem_cons.mp hz with rfl | hz
  · exact ⟨new, List.mem_cons_self, heoi, hess⟩
  · exact ⟨z, List.mem_cons_of_mem _ hz, rfl, rfl⟩

section Laminar

variable {pause : Nat} {soon later : Int} {n : Nat} {known others : List Lifetime} {x : Lifetime}

theorem Laminar.perm (h : Laminar pause soon n known) (hperm : known ~ others) :
    Laminar pause soon n others where
  places := (hperm.map eoi).symm.trans h.places
  past := fun x hx => h.past x (hperm.mem_iff.mpr hx)
  paired := by
    intro x hx y hy hlt
    obtain ⟨hentry, hpair⟩ := h.paired x (hperm.mem_iff.mpr hx) y (hperm.mem_iff.mpr hy) hlt
    exact ⟨hentry, hpair.imp_left (·.mono fun z hz => ⟨z, hperm.mem_iff.mp hz, rfl, rfl⟩)⟩

theorem Laminar.wait (h : Laminar pause soon n known) (hlater : soon ≤ later) :
    Laminar pause later n known where
  places := h.places
  past := by
    intro x hx
    obtain ⟨hentry, hexit⟩ := h.past x hx
    refine ⟨by omega, fun time htime => ?_⟩
    obtain ⟨hentered, hle⟩ := hexit time htime
    exact ⟨hentered, Int.le_trans hle hlater⟩
  paired := h.paired

theorem Laminar.eoi_lt (h : Laminar pause soon n known) (hx : x ∈ known) : x.eoi < n :=
  List.mem_range.mp (h.places.mem_iff.mp (List.mem_map_of_mem hx))

/-- A place has one invocation. -/
theorem Laminar.eq_of_eoi (h : Laminar pause soon n known) {y : Lifetime} (hx : x ∈ known)
    (hy : y ∈ known) (heoi : x.eoi = y.eoi) : x = y :=
  List.inj_on_of_nodup_map (h.places.nodup_iff.mpr List.nodup_range) hx hy heoi

/-- An invocation ends once all those that opened after it have ended. -/
theorem Laminar.exit (h : Laminar pause soon n (x :: known)) (hopen : x.exitTime? = none)
    (hended : ∀ y ∈ known, x.eoi < y.eoi → y.exitTime?.isSome) :
    Laminar pause soon n ({ x with exitTime? := some soon } :: known) where
  places := h.places
  past := by
    intro y hy
    rcases List.mem_cons.mp hy with rfl | hy
    · have hentered := (h.past x List.mem_cons_self).1
      refine ⟨hentered, ?_⟩
      intro time htime
      obtain rfl := Option.some.inj htime
      exact ⟨by change x.entryTime ≤ soon; omega, Int.le_refl soon⟩
    · exact h.past y (List.mem_cons_of_mem x hy)
  paired := by
    intro y hy z hz hlt
    rcases List.mem_cons.mp hy with rfl | hy <;> rcases List.mem_cons.mp hz with rfl | hz
    · exact absurd hlt (Nat.lt_irrefl _)
    · obtain ⟨hentry, hpair⟩ :=
        h.paired x List.mem_cons_self z (List.mem_cons_of_mem x hz) hlt
      obtain ⟨inner, hinner⟩ := Option.isSome_iff_exists.mp (hended z hz hlt)
      refine ⟨hentry, .inr ⟨?_, fun time htime => ⟨inner, hinner, ?_⟩⟩⟩
      · rcases hpair with ⟨⟨time, htime, _⟩, _⟩ | ⟨hdeeper, _⟩
        · rw [hopen] at htime; cases htime
        · exact hdeeper
      · rw [← Option.some.inj htime]
        exact ((h.past z (List.mem_cons_of_mem x hz)).2 inner hinner).2
    · obtain ⟨hentry, hpair⟩ :=
        h.paired y (List.mem_cons_of_mem x hy) x List.mem_cons_self hlt
      refine ⟨hentry, ?_⟩
      rcases hpair with hbefore | ⟨hdeeper, hinside⟩
      · exact .inl (hbefore.replaced rfl rfl)
      · refine .inr ⟨hdeeper, fun time htime => ?_⟩
        obtain ⟨inner, hinner, _⟩ := hinside time htime
        rw [hopen] at hinner; cases hinner
    · obtain ⟨hentry, hpair⟩ :=
        h.paired y (List.mem_cons_of_mem x hy) z (List.mem_cons_of_mem x hz) hlt
      exact ⟨hentry, hpair.imp_left (·.replaced rfl rfl)⟩

/-- An invocation opens at the next place, one deeper than those that are open. -/
theorem Laminar.enter {depth : Nat} (h : Laminar pause soon n known)
    (hdepth : ∀ x ∈ known, x.exitTime? = none → x.ess < depth)
    (hlevels : ∀ ess < depth, ∃ x ∈ known, x.exitTime? = none ∧ x.ess = ess)
    (hlater : soon + pause ≤ later) :
    Laminar pause later (n + 1) (⟨n, depth, soon, none⟩ :: known) where
  places := by
    rw [List.map_cons, List.range_succ]
    exact (h.places.cons n).trans (List.perm_append_singleton n _).symm
  past := by
    intro x hx
    rcases List.mem_cons.mp hx with rfl | hx
    · exact ⟨hlater, fun time htime => by cases htime⟩
    · obtain ⟨hentry, hexit⟩ := h.past x hx
      exact ⟨by omega, fun time htime => by have := hexit time htime; omega⟩
  paired := by
    intro x hx y hy hlt
    rcases List.mem_cons.mp hx with rfl | hx
    · rcases List.mem_cons.mp hy with rfl | hy
      · exact absurd hlt (Nat.lt_irrefl _)
      · exact absurd (h.eoi_lt hy) (Nat.not_lt.mpr hlt.le)
    rcases List.mem_cons.mp hy with rfl | hy
    · refine ⟨(h.past x hx).1, ?_⟩
      cases hexit : x.exitTime? with
      | none =>
        refine .inr ⟨hdepth x hx hexit, fun time htime => ?_⟩
        rw [hexit] at htime; cases htime
      | some time =>
        refine .inl ⟨⟨time, hexit, ((h.past x hx).2 time hexit).2⟩, ?_⟩
        by_cases hshallow : depth ≤ x.ess
        · exact ⟨_, List.mem_cons_self, hlt, Nat.le_refl n, hshallow⟩
        -- what is open at the depth of the ended one opened after it
        obtain ⟨z, hz, hzopen, hess⟩ := hlevels x.ess (Nat.not_le.mp hshallow)
        refine ⟨z, List.mem_cons_of_mem _ hz, ?_, (h.eoi_lt hz).le, hess.le⟩
        by_contra hnot
        rcases Nat.lt_or_eq_of_le (Nat.not_lt.mp hnot) with hbefore | heq
        · rcases (h.paired z hz x hx hbefore).2 with ⟨⟨time, htime, _⟩, _⟩ | ⟨hdeeper, _⟩
          · rw [hzopen] at htime; cases htime
          · omega
        · rw [h.eq_of_eoi hz hx heq, hexit] at hzopen
          cases hzopen
    · obtain ⟨hentry, hpair⟩ := h.paired x hx y hy hlt
      exact ⟨hentry,
        hpair.imp_left (·.mono fun z hz => ⟨z, List.mem_cons_of_mem _ hz, rfl, rfl⟩)⟩

/-- The invocation that opened last is entered anew. -/
theorem Laminar.reenter (h : Laminar pause soon n (x :: known)) (hopen : x.exitTime? = none)
    (hlast : x.eoi + 1 = n) (hlater : soon + pause ≤ later) :
    Laminar pause later n ({ x with entryTime := soon } :: known) where
  places := h.places
  past := by
    intro y hy
    rcases List.mem_cons.mp hy with rfl | hy
    · refine ⟨hlater, fun time htime => ?_⟩
      rw [hopen] at htime; cases htime
    · obtain ⟨hentry, hexit⟩ := h.past y (List.mem_cons_of_mem x hy)
      exact ⟨by omega, fun time htime => by have := hexit time htime; omega⟩
  paired := by
    intro y hy z hz hlt
    rcases List.mem_cons.mp hy with rfl | hy <;> rcases List.mem_cons.mp hz with rfl | hz
    · exact absurd hlt (Nat.lt_irrefl _)
    · have := h.eoi_lt (List.mem_cons_of_mem x hz)
      change x.eoi < z.eoi at hlt
      omega
    · obtain ⟨hentry, hexit⟩ := h.past y (List.mem_cons_of_mem x hy)
      obtain ⟨_, hpair⟩ := h.paired y (List.mem_cons_of_mem x hy) x List.mem_cons_self hlt
      refine ⟨hentry, ?_⟩
      rcases hpair with hbefore | henc
      · obtain ⟨⟨time, htime, _⟩, hsince⟩ := hbefore
        have hearlier : Precedes (x :: known) y { x with entryTime := soon } :=
          ⟨⟨time, htime, (hexit time htime).2⟩, hsince⟩
        exact .inl (hearlier.replaced rfl rfl)
      · exact .inr henc
    · obtain ⟨hentry, hpair⟩ :=
        h.paired y (List.mem_cons_of_mem x hy) z (List.mem_cons_of_mem x hz) hlt
      exact ⟨hentry, hpair.imp_left (·.replaced rfl rfl)⟩

end Laminar

end Lifetime

def Invocation.lifetime (i : Invocation) : Lifetime :=
  ⟨i.slot.eoi, i.slot.ess, i.entryTime, some i.exitTime⟩

namespace Frame
open Lifetime
open scoped List

def lifetime (f : Frame) : Lifetime :=
  ⟨f.slot.eoi, f.slot.ess, f.entryTime, none⟩

/-- The lifetimes of the open and the ended invocations. -/
def lifetimes (fs : List Frame) (ended : List Invocation) : List Lifetime :=
  fs.map lifetime ++ ended.map Invocation.lifetime

theorem lifetime_endedAt (f : Frame) (time : Int) (assumed : Bool) :
    (f.endedAt time assumed).lifetime = { f.lifetime with exitTime? := some time } := by
  cases f <;> rfl

/-- The invocations that have no exit are those of the frames. -/
theorem open_lifetime {fs : List Frame} {ended : List Invocation} {x : Lifetime}
    (hx : x ∈ lifetimes fs ended) (hopen : x.exitTime? = none) : ∃ f ∈ fs, f.lifetime = x := by
  rcases List.mem_append.mp hx with hx | hx
  · exact List.mem_map.mp hx
  · obtain ⟨i, _, rfl⟩ := List.mem_map.mp hx
    cases hopen

section Stacked

variable {m : Matching} {fs : List Frame}

theorem Stacked.ess_lt (h : Stacked m fs) : ∀ f ∈ fs, f.slot.ess < fs.length := by
  induction fs with
  | nil => simp
  | cons f below ih =>
    obtain ⟨hess, _, _, hbelow⟩ := h
    intro g hg
    rcases List.mem_cons.mp hg with rfl | hg
    · rw [hess]; exact Nat.lt_succ_self _
    · exact Nat.lt_succ_of_lt (ih hbelow g hg)

theorem Stacked.exists_ess (h : Stacked m fs) {ess : Nat} (hess : ess < fs.length) :
    ∃ f ∈ fs, f.slot.ess = ess := by
  induction fs with
  | nil => cases hess
  | cons f below ih =>
    obtain ⟨hdepth, _, _, hbelow⟩ := h
    rcases Nat.lt_or_eq_of_le (Nat.le_of_lt_succ hess) with hlower | rfl
    · obtain ⟨g, hg, hgess⟩ := ih hbelow hlower
      exact ⟨g, List.mem_cons_of_mem f hg, hgess⟩
    · exact ⟨f, List.mem_cons_self, hdepth⟩

end Stacked

section Moves

variable {m : Matching} {pause : Nat} {soon later : Int} {n : Nat} {f : Frame}
  {fs below : List Frame} {ended more : List Invocation}

/-- The innermost invocation ends. -/
theorem laminar_pop (h : Laminar pause soon n (lifetimes (f :: fs) ended))
    (hs : Stacked m (f :: fs)) (assumed : Bool) :
    Laminar pause soon n (lifetimes fs (ended ++ [f.endedAt soon assumed])) := by
  refine (h.exit rfl ?_).perm ?_
  · intro y hy hlt
    cases hopen : y.exitTime? with
    | some time => rfl
    | none =>
      obtain ⟨g, hg, rfl⟩ := open_lifetime hy hopen
      exact absurd hlt (Nat.not_lt.mpr (hs.2.1 g hg).le)
  · rw [← lifetime_endedAt f soon assumed]
    simp only [lifetimes, List.map_append, List.map_cons, List.map_nil, ← List.append_assoc]
    exact (List.perm_append_singleton _ _).symm

theorem laminar_pops {closed : List Frame}
    (h : Laminar pause soon n (lifetimes (closed ++ below) ended))
    (hs : Stacked m (closed ++ below)) :
    Laminar pause soon n (lifetimes below (ended ++ closed.map (endedAt soon true))) := by
  induction closed generalizing ended with
  | nil => simpa using h
  | cons f closed ih =>
    have hrest := ih (laminar_pop h hs true) hs.2.2.2
    rwa [List.append_assoc] at hrest

theorem laminar_close {signature : String}
    (h : Laminar pause soon n (lifetimes fs ended)) (hs : Stacked m fs)
    (hclose : close signature soon fs = (more, below)) :
    Laminar pause soon n (lifetimes below (ended ++ more)) := by
  obtain ⟨closed, hsplit, _, hended⟩ := close_split signature soon fs
  rw [hclose] at hsplit hended
  rw [hsplit] at h hs
  refine (laminar_pops h hs).perm ?_
  rw [show more = closed.reverse.map (endedAt soon true) from hended]
  exact (((closed.reverse_perm.symm.map _).append_left ended).map _).append_left _

theorem laminar_push (h : Laminar pause soon n (lifetimes fs ended)) (hs : Stacked m fs)
    (hf : f.lifetime = ⟨n, fs.length, soon, none⟩) (hlater : soon + pause ≤ later) :
    Laminar pause later (n + 1) (lifetimes (f :: fs) ended) := by
  change Laminar pause later (n + 1) (f.lifetime :: lifetimes fs ended)
  rw [hf]
  refine h.enter ?_ ?_ hlater
  · intro x hx hopen
    obtain ⟨g, hg, rfl⟩ := open_lifetime hx hopen
    exact hs.ess_lt g hg
  · intro ess hess
    obtain ⟨g, hg, hgess⟩ := hs.exists_ess hess
    exact ⟨g.lifetime, List.mem_append_left _ (List.mem_map_of_mem hg), rfl, hgess⟩

/-- A call that is not the last invocation has missed the event that would answer it. -/
def Current (index : Int) (n : Nat) (fs : List Frame) : Prop :=
  ∀ caller call, called caller call ∈ fs →
    call.slot.eoi + 1 = n ∨ call.stamp.orderIndex + 1 < index

theorem Moves.laminar {e : Event} {gs : List Frame} {k : Nat}
    (hmoves : Moves m e fs n gs k more) (hs : Sound m fs n)
    (h : Laminar pause e.timestamp n (lifetimes fs ended)) (hcurrent : Current e.orderIndex n fs)
    (hlater : e.timestamp + pause ≤ later) :
    Laminar pause later k (lifetimes gs (ended ++ more)) := by
  cases hmoves with
  | call hclose =>
    exact laminar_push (laminar_close h hs.stacked hclose) (hs.close hclose).stacked rfl hlater
  | announced hann =>
    have hlast := (hcurrent _ _ List.mem_cons_self).resolve_right fun hmissed =>
      absurd (Matching.call_of_announces (Option.isSome_iff_exists.mp hann).choose_spec).1
        (Int.ne_of_lt hmissed)
    rw [List.append_nil]
    exact h.reenter rfl hlast hlater
  | unannounced _ hclose =>
    exact laminar_push (laminar_close h hs.stacked hclose) (hs.close hclose).stacked rfl hlater
  | ended hend hclose =>
    rename_i kind stamp endStamp operation slot marker? closed
    have hstamp : endStamp.timestamp = e.timestamp := by
      cases e <;> cases hend <;> rfl
    rw [hstamp] at hclose ⊢
    have hclosed := laminar_close h hs.stacked hclose
    rw [← List.append_assoc]
    exact (laminar_pop hclosed (hs.close hclose).stacked _).wait (by omega)
  | ignored _ =>
    rw [List.append_nil]
    exact h.wait (by omega)

theorem Moves.current {e : Event} {gs : List Frame} {k : Nat} {index : Int}
    (hmoves : Moves m e fs n gs k more)
    (hnew : ∀ d ∈ openEvents fs, d.orderIndex < e.orderIndex) (hindex : e.orderIndex < index) :
    Current index k gs := by
  have hold : Current index k fs := by
    intro caller call hcall
    have hlt := hnew (call.marker caller) (List.mem_flatMap.mpr ⟨_, hcall, by simp [events]⟩)
    change call.stamp.orderIndex < e.orderIndex at hlt
    exact .inr (by omega)
  have hclosed : ∀ {signature : String} {time : Int} {ended : List Invocation} {below},
      close signature time fs = (ended, below) → Current index k below := by
    intro signature time ended below hclose caller call hcall
    obtain ⟨closed, hsplit, _, _⟩ := close_split signature time fs
    rw [hclose] at hsplit
    exact hold caller call (hsplit ▸ List.mem_append_right _ hcall)
  intro caller call hcall
  cases hmoves with
  | call hclose =>
    rcases List.mem_cons.mp hcall with heq | hcall
    · cases heq
      exact .inl rfl
    · exact hclosed hclose caller call hcall
  | announced _ =>
    rcases List.mem_cons.mp hcall with heq | hcall
    · cases heq
    · exact hold caller call (List.mem_cons_of_mem _ hcall)
  | unannounced _ hclose =>
    rcases List.mem_cons.mp hcall with heq | hcall
    · cases heq
    · exact hclosed hclose caller call hcall
  | ended _ hclose => exact hclosed hclose caller call (List.mem_cons_of_mem _ hcall)
  | ignored _ => exact hold caller call hcall

end Moves

/-- The lifetimes of a history are laminar if its events are a pause apart. -/
theorem History.laminar {m : Matching} {pause : Nat} {es : List Event} {fs : List Frame} {n : Nat}
    {ended : List Invocation} (h : History m es fs n ended)
    (hinc : es.Pairwise fun d e => d.orderIndex < e.orderIndex)
    (htime : es.Pairwise fun (d e : Event) => d.timestamp + pause ≤ e.timestamp) {soon index : Int}
    (hsoon : ∀ d ∈ es, d.timestamp + pause ≤ soon) (hindex : ∀ d ∈ es, d.orderIndex < index) :
    Laminar pause soon n (lifetimes fs ended) ∧ Current index n fs := by
  induction h generalizing soon index with
  | start => exact ⟨⟨List.Perm.refl _, by simp [lifetimes], by simp [lifetimes]⟩, by simp [Current]⟩
  | @step es e fs gs n k ended more hpast hmoves ih =>
    obtain ⟨hes, _, hnew⟩ := List.pairwise_append.mp hinc
    obtain ⟨htimes, _, hnewTime⟩ := List.pairwise_append.mp htime
    obtain ⟨hlaminar, hcurrent⟩ := ih hes htimes (fun d hd => hnewTime d hd e (by simp))
      (fun d hd => hnew d hd e (by simp))
    refine ⟨hmoves.laminar (hpast.sound hes) hlaminar hcurrent (hsoon e (by simp)), ?_⟩
    exact hmoves.current (fun d hd => hnew d (hpast.openEvents_subset d hd) e (by simp))
      (hindex e (by simp))

end Frame

end Retrace
