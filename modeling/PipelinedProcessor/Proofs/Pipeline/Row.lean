import PipelinedProcessor.Pipeline.Cycle
import PipelinedProcessor.Proofs.Flight.Stages

namespace PipelinedProcessor

open Flight

-- The flights of a pipeline, the youngest first, each in its place behind the older ones.
def Row (retired : Nat) : List Flight → Prop
  | [] => True
  | f :: older => f.Fits retired older ∧ Row retired older

namespace Row

variable {retired : Nat} {pre post : List Flight} {f f' : Flight}

theorem fits (h : Row retired (pre ++ f :: post)) : f.Fits retired post := by
  induction pre with
  | nil => exact h.1
  | cons y rest ih => exact ih h.2

theorem behind (h : Row retired (pre ++ f :: post)) : Row retired post := by
  induction pre with
  | nil => exact h.2
  | cons y rest ih => exact ih h.2

theorem id_bounds {fs : List Flight} (h : Row retired fs) {g : Flight} (hg : g ∈ fs) :
    retired ≤ g.id ∧ g.id < retired + fs.length := by
  obtain ⟨before, after, rfl⟩ := List.append_of_mem hg
  have hid := h.fits.id_eq
  simp only [List.length_append, List.length_cons]
  omega

theorem exists_of_id {fs : List Flight} (h : Row retired fs) {id : Nat} (hle : retired ≤ id)
    (hlt : id < retired + fs.length) : ∃ g ∈ fs, g.id = id := by
  induction fs with
  | nil => simp at hlt; omega
  | cons y rest ih =>
      by_cases hlast : id = retired + rest.length
      · exact ⟨y, List.mem_cons_self, h.1.id_eq.trans hlast.symm⟩
      · rw [List.length_cons] at hlt
        obtain ⟨g, hg, hid⟩ := ih h.2 (by omega)
        exact ⟨g, List.mem_cons_of_mem _ hg, hid⟩

-- Numbers grow towards the younger ones.
theorem mem_older_iff (h : Row retired (pre ++ f :: post)) (g : Flight) :
    (g ∈ pre ++ f :: post ∧ g.id < f.id) ↔ g ∈ post := by
  have hid := h.fits.id_eq
  constructor
  · rintro ⟨hg, hlt⟩
    rcases List.mem_append.mp hg with hpre | hrest
    · obtain ⟨before, after, rfl⟩ := List.append_of_mem hpre
      rw [List.append_assoc, List.cons_append] at h
      have hyounger := h.fits.id_eq
      simp only [List.length_append, List.length_cons] at hyounger
      omega
    · rcases List.mem_cons.mp hrest with rfl | hpost
      · omega
      · exact hpost
  · intro hg
    refine ⟨List.mem_append_right _ (List.mem_cons_of_mem _ hg), ?_⟩
    have hbounds := h.behind.id_bounds hg
    omega

theorem id_ne (h : Row retired (pre ++ f :: post)) {g : Flight} (hg : g ∈ pre ∨ g ∈ post) :
    g.id ≠ f.id := by
  intro heq
  rcases hg with hpre | hpost
  · obtain ⟨before, after, rfl⟩ := List.append_of_mem hpre
    rw [List.append_assoc, List.cons_append] at h
    have hlt := ((h.mem_older_iff f).mpr (by simp)).2
    omega
  · have hlt := ((h.mem_older_iff g).mpr hpost).2
    omega

-- One flight makes progress. Only Decode changes what the younger ones can see of it, and those
-- are in Fetch then, where they do not look.
theorem update (h : Row retired (pre ++ f :: post)) (hfits : f'.Fits retired post)
    (hkeep : SameFace f f' ∨ (f'.id = f.id ∧ ∀ y ∈ pre, y.stage = .fetch)) :
    Row retired (pre ++ f' :: post) := by
  induction pre with
  | nil => exact ⟨hfits, h.2⟩
  | cons y rest ih =>
      have hid : f'.id = f.id := by
        rcases hkeep with hface | ⟨hid, -⟩
        · exact hface.id_eq
        · exact hid
      refine ⟨h.1.of_older (by simp) ?_ ?_, ih h.2 ?_⟩
      · rcases hkeep with hface | ⟨-, hfetch⟩
        · right
          intro g' hg'
          rcases List.mem_append.mp hg' with hrest | hlast
          · exact ⟨g', List.mem_append_left _ hrest, .refl g'⟩
          · rcases List.mem_cons.mp hlast with rfl | hpost
            · exact ⟨f, by simp, hface⟩
            · exact ⟨g', by simp [hpost], .refl g'⟩
        · exact .inl (hfetch y List.mem_cons_self)
      · rintro j - ⟨g, hg, rfl⟩
        rcases List.mem_append.mp hg with hrest | hlast
        · exact ⟨g, List.mem_append_left _ hrest, rfl⟩
        · rcases List.mem_cons.mp hlast with rfl | hpost
          · exact ⟨f', by simp, hid⟩
          · exact ⟨g, by simp [hpost], rfl⟩
      · rcases hkeep with hface | ⟨-, hfetch⟩
        · exact .inl hface
        · exact .inr ⟨hid, fun z hz => hfetch z (List.mem_cons_of_mem _ hz)⟩

end Row

section Wake

variable {retired : Nat} {older : List Flight} {f oldest : Flight}

theorem wakeIf_of_stalled {producer : Nat} (h : f.state = .stalled producer) :
    Pipeline.wakeIf producer f = f.complete := by
  rw [Pipeline.wakeIf, if_pos h]

theorem wakeIf_of_not_stalled {producer : Nat} (h : f.state ≠ .stalled producer) :
    Pipeline.wakeIf producer f = f := by
  rw [Pipeline.wakeIf, if_neg h]

theorem sameFace_wakeIf (producer : Nat) (f : Flight) :
    SameFace f (Pipeline.wakeIf producer f) := by
  by_cases h : f.state = .stalled producer
  · rw [wakeIf_of_stalled h]
    exact sameFace_complete f
  · rw [wakeIf_of_not_stalled h]
    exact .refl f

theorem raw_wakeIf (producer : Nat) (f : Flight) : (Pipeline.wakeIf producer f).raw = f.raw := by
  unfold Pipeline.wakeIf
  split <;> rfl

theorem stage_wakeIf (producer : Nat) (f : Flight) :
    (Pipeline.wakeIf producer f).stage = f.stage := by
  unfold Pipeline.wakeIf
  split <;> rfl

theorem ready_of_wakeIf {producer : Nat} (h : (Pipeline.wakeIf producer f).state = .ready) :
    f.state = .ready := by
  unfold Pipeline.wakeIf at h
  split at h
  · cases h
  · exact h

-- The oldest has retired. Whoever waited for it had nothing younger to wait for.
theorem Flight.Fits.wake (h : f.Fits retired (older ++ [oldest])) (holdest : oldest.id = retired)
    (hrow : Row retired (older ++ [oldest])) :
    (Pipeline.wakeIf retired f).Fits (retired + 1) (older.map (Pipeline.wakeIf retired)) := by
  have hid : f.id = retired + 1 + (older.map (Pipeline.wakeIf retired)).length := by
    have hlength := h.id_eq
    simp only [List.length_append, List.length_singleton] at hlength
    simp only [List.length_map]
    omega
  have hlater : ∀ g ∈ older, retired < g.id := by
    intro g hg
    obtain ⟨before, after, rfl⟩ := List.append_of_mem hg
    rw [List.append_assoc, List.cons_append] at hrow
    have hfits := hrow.fits.id_eq
    simp only [List.length_append, List.length_singleton] at hfits
    omega
  have hfree (f' : Flight) (hface : SameFace f f') (P : Nat → Prop)
      (hall : ∀ g ∈ older ++ [oldest], P g.id → f.dependsOn g = false) :
      ∀ g' ∈ older.map (Pipeline.wakeIf retired), P g'.id → f'.dependsOn g' = false := by
    intro g' hg' hp
    obtain ⟨g, hg, rfl⟩ := List.mem_map.mp hg'
    rw [dependsOn_congr hface (sameFace_wakeIf retired g)]
    exact hall g (List.mem_append_left _ hg) ((sameFace_wakeIf retired g).id_eq ▸ hp)
  by_cases hstate : f.state = .stalled retired
  · rw [wakeIf_of_stalled hstate]
    obtain ⟨hstage, hknown, -, hlate⟩ := h.stalled retired hstate
    obtain ⟨hp, hp'⟩ := h.progress_of_stalled hstate
    refine ⟨hid, h.place, ?_, nofun, ?_, by omega, fun _ => h.fetched (by omega), by omega,
      fun _ => h.idle (by omega)⟩
    · rw [progress_complete]
      exact done_of_complete h.place (by simp [hstate]) h.done_eq
    · intro _
      refine ⟨hknown, ?_⟩
      intro g hg
      refine hfree f.complete (sameFace_complete f) (retired < ·) hlate g hg ?_
      obtain ⟨g, hmem, rfl⟩ := List.mem_map.mp hg
      rw [(sameFace_wakeIf retired g).id_eq]
      exact hlater g hmem
  · rw [wakeIf_of_not_stalled hstate]
    refine ⟨hid, h.place, h.done_eq, ?_, ?_, h.blank, h.fetched, h.undecoded, h.idle⟩
    · intro j hj
      obtain ⟨hstage, hknown, ⟨g, hg, hgid⟩, hlate⟩ := h.stalled j hj
      refine ⟨hstage, hknown, ?_, hfree f (.refl f) (j < ·) hlate⟩
      rcases List.mem_append.mp hg with holder | hlast
      · exact ⟨Pipeline.wakeIf retired g, List.mem_map_of_mem holder, by
          rw [(sameFace_wakeIf retired g).id_eq, hgid]⟩
      · rw [List.mem_singleton] at hlast
        subst hlast
        exact absurd (hgid.symm.trans holdest ▸ hj) hstate
    · intro hprogress
      obtain ⟨hknown, hnone⟩ := h.settled hprogress
      exact ⟨hknown, fun g hg => hfree f (.refl f) (fun _ => True)
        (fun g hg _ => hnone g hg) g hg trivial⟩

theorem Row.progress_wakeIf {pre post : List Flight} (h : Row retired (pre ++ post))
    (producer : Nat) (hf : f ∈ pre) : f.progress ≤ (Pipeline.wakeIf producer f).progress ∧
      ((Pipeline.wakeIf producer f).progress < 7 ↔ f.progress < 7) := by
  by_cases hstate : f.state = .stalled producer
  · obtain ⟨before, after, rfl⟩ := List.append_of_mem hf
    rw [List.append_assoc, List.cons_append] at h
    obtain ⟨hp, hp'⟩ := h.fits.progress_of_stalled hstate
    rw [wakeIf_of_stalled hstate]
    omega
  · rw [wakeIf_of_not_stalled hstate]
    exact ⟨Nat.le_refl _, .rfl⟩

theorem Row.retire {pre : List Flight} (h : Row retired (pre ++ [oldest])) :
    Row (retired + 1) (pre.map (Pipeline.wakeIf retired)) := by
  induction pre with
  | nil => trivial
  | cons y rest ih => exact ⟨h.1.wake (by simpa using h.fits.id_eq) h.2, ih h.2⟩

end Wake

-- A branch that was fetched is open until it has passed Memory Access, and it is the only one.
structure OpenBranch (openBranch : Option Nat) (fs : List Flight) : Prop where
  unresolved : ∀ f ∈ fs, f.raw.any (·.kind = Word.branchKind) = true → f.progress < 7 →
    openBranch = some f.id
  flying : ∀ b, openBranch = some b → ∃ f ∈ fs, f.id = b ∧
    f.raw.any (·.kind = Word.branchKind) = true ∧ 1 ≤ f.progress ∧ f.progress < 7

namespace OpenBranch

variable {openBranch : Option Nat} {pre post : List Flight} {f f' : Flight}

theorem update (h : OpenBranch openBranch (pre ++ f :: post)) (hid : f'.id = f.id)
    (hraw : f'.raw = f.raw) (hstarted : 1 ≤ f.progress → 1 ≤ f'.progress)
    (hpassed : f'.progress < 7 ↔ f.progress < 7) :
    OpenBranch openBranch (pre ++ f' :: post) := by
  constructor
  · intro g hg hkind hprogress
    rcases List.mem_append.mp hg with hpre | hrest
    · exact h.unresolved g (by simp [hpre]) hkind hprogress
    · rcases List.mem_cons.mp hrest with rfl | hpost
      · rw [hid]
        exact h.unresolved f (by simp) (hraw ▸ hkind) (hpassed.mp hprogress)
      · exact h.unresolved g (by simp [hpost]) hkind hprogress
  · intro b hb
    obtain ⟨g, hg, hgid, hgkind, hgstarted, hglt⟩ := h.flying b hb
    rcases List.mem_append.mp hg with hpre | hrest
    · exact ⟨g, by simp [hpre], hgid, hgkind, hgstarted, hglt⟩
    · rcases List.mem_cons.mp hrest with rfl | hpost
      · exact ⟨f', by simp, hid.trans hgid, hraw ▸ hgkind, hstarted hgstarted, hpassed.mpr hglt⟩
      · exact ⟨g, by simp [hpost], hgid, hgkind, hgstarted, hglt⟩

theorem map (h : OpenBranch openBranch pre) {wake : Flight → Flight} (hid : ∀ f, (wake f).id = f.id)
    (hraw : ∀ f, (wake f).raw = f.raw)
    (hstarted : ∀ f ∈ pre, 1 ≤ f.progress → 1 ≤ (wake f).progress)
    (hpassed : ∀ f ∈ pre, (wake f).progress < 7 ↔ f.progress < 7) :
    OpenBranch openBranch (pre.map wake) := by
  constructor
  · intro g' hg' hkind hprogress
    obtain ⟨g, hg, rfl⟩ := List.mem_map.mp hg'
    rw [hid]
    exact h.unresolved g hg (hraw g ▸ hkind) ((hpassed g hg).mp hprogress)
  · intro b hb
    obtain ⟨g, hg, hgid, hgkind, hgstarted, hglt⟩ := h.flying b hb
    exact ⟨wake g, List.mem_map_of_mem hg, (hid g).trans hgid, (hraw g).symm ▸ hgkind,
      hstarted g hg hgstarted, (hpassed g hg).mpr hglt⟩

-- The branch that was open passes Memory Access.
theorem resolve {retired : Nat} (h : OpenBranch openBranch (pre ++ f :: post))
    (hrow : Row retired (pre ++ f :: post)) (hpassed : 7 ≤ f'.progress) :
    OpenBranch (if openBranch = some f.id then none else openBranch) (pre ++ f' :: post) := by
  constructor
  · intro g hg hkind hprogress
    have hother : g ∈ pre ∨ g ∈ post := by
      rcases List.mem_append.mp hg with hpre | hrest
      · exact .inl hpre
      · rcases List.mem_cons.mp hrest with rfl | hpost
        · omega
        · exact .inr hpost
    have hopen := h.unresolved g (by simp; tauto) hkind hprogress
    rw [hopen, if_neg]
    intro heq
    exact hrow.id_ne hother (Option.some.inj heq)
  · intro b hb
    split at hb
    · cases hb
    · rename_i hne
      obtain ⟨g, hg, hgid, hfacts⟩ := h.flying b hb
      rcases List.mem_append.mp hg with hpre | hrest
      · exact ⟨g, by simp [hpre], hgid, hfacts⟩
      · rcases List.mem_cons.mp hrest with rfl | hpost
        · exact absurd (hgid ▸ hb) hne
        · exact ⟨g, by simp [hpost], hgid, hfacts⟩

-- A word comes in while no branch is open.
theorem fetched (h : OpenBranch none (f :: post)) (hprogress : f'.progress = 1)
    (hid : f'.id = f.id) :
    OpenBranch (if f'.raw.any (·.kind = Word.branchKind) then some f.id else none)
      (f' :: post) := by
  have hnone : ∀ g ∈ post, g.raw.any (·.kind = Word.branchKind) = true → ¬g.progress < 7 := by
    intro g hg hkind hlt
    cases h.unresolved g (List.mem_cons_of_mem _ hg) hkind hlt
  constructor
  · intro g hg hkind hlt
    rcases List.mem_cons.mp hg with rfl | hpost
    · rw [if_pos hkind, hid]
    · exact absurd hlt (hnone g hpost hkind)
  · intro b hb
    split at hb
    · rename_i hkind
      obtain rfl := Option.some.inj hb
      exact ⟨f', List.mem_cons_self, hid, hkind, by omega, by omega⟩
    · cases hb

-- What has passed Memory Access may go.
theorem of_passed (h : OpenBranch openBranch (pre ++ [f])) (hpassed : 7 ≤ f.progress) :
    OpenBranch openBranch pre := by
  constructor
  · intro g hg
    exact h.unresolved g (List.mem_append_left _ hg)
  · intro b hb
    obtain ⟨g, hg, hgid, hgkind, hgstarted, hglt⟩ := h.flying b hb
    rcases List.mem_append.mp hg with hpre | hlast
    · exact ⟨g, hpre, hgid, hgkind, hgstarted, hglt⟩
    · rw [List.mem_singleton] at hlast
      subst hlast
      omega

-- So may what was never fetched, and it may come.

theorem of_fresh (h : OpenBranch openBranch (f :: post)) (hfresh : f.progress = 0) :
    OpenBranch openBranch post := by
  constructor
  · intro g hg
    exact h.unresolved g (List.mem_cons_of_mem _ hg)
  · intro b hb
    obtain ⟨g, hg, hgid, hgkind, hgstarted, hglt⟩ := h.flying b hb
    rcases List.mem_cons.mp hg with rfl | hpost
    · omega
    · exact ⟨g, hpost, hgid, hgkind, hgstarted, hglt⟩

theorem of_new (h : OpenBranch openBranch post) (hraw : f.raw = none) :
    OpenBranch openBranch (f :: post) := by
  constructor
  · intro g hg hkind
    rcases List.mem_cons.mp hg with rfl | hpost
    · simp [hraw] at hkind
    · exact h.unresolved g hpost hkind
  · intro b hb
    obtain ⟨g, hg, hfacts⟩ := h.flying b hb
    exact ⟨g, List.mem_cons_of_mem _ hg, hfacts⟩

end OpenBranch

end PipelinedProcessor
