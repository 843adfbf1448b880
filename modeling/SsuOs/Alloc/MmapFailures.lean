import SsuOs.Alloc.Pages

/-!
# Calls of mmap that fail

`alloc` keeps `MAP_FAILED` as the start of a page, and the next request is served from there. The
calls of a history do what they should exactly as long as `mmap` succeeds
(`survives_iff_mmap_succeeds`).
-/

namespace SsuOs.Alloc.Pages

open Page (mapFailed Call Live)

/-- The heap with its live blocks and all results of `mmap` so far. -/
structure Snapshot where
  heap : Heap
  live : List Live
  returned : List ℕ

/-- A call of the allocator. -/
def Snapshot.exec (s : Snapshot) (c : Call) : Snapshot where
  heap := (Pages.exec (s.heap, s.live) c).1
  live := (Pages.exec (s.heap, s.live) c).2
  returned := s.returned ++ maps s.heap c

inductive Step (s : Snapshot) (c : Call) : Snapshot → Prop
  | exec : Step s c (s.exec c)

/-- The snapshot after `init_alloc`. -/
def booted (mmap : ℕ → ℕ) : Snapshot := ⟨initAlloc mmap, [], []⟩

/-- A call survives: a pointer that it returns lies in a page that `mmap` has returned, the live
blocks are disjoint, and if it returns `NULL` because `mmap` failed, the tables and the starts of
the unmapped pages are as before. -/
structure Survives (e : Event Snapshot Call) : Prop where
  inside : ∀ size, e.label = .alloc size → (alloc e.before.heap size).1 ≠ 0 →
    ∃ page ∈ e.after.returned, page ≠ mapFailed ∧ page ≤ (alloc e.before.heap size).1 ∧
      (alloc e.before.heap size).1 < page + pageSize
  disjoint : e.after.live.Pairwise fun a b =>
    Disjoint (e.after.heap.extent a.adr) (e.after.heap.extent b.adr)
  retry : ∀ size, e.label = .alloc size → (alloc e.before.heap size).1 = 0 →
    mapFailed ∈ maps e.before.heap e.label →
      e.after.heap.mem = e.before.heap.mem ∧
        ∀ p, e.before.heap.start p = 0 → e.after.heap.start p = 0

/-- No call of `mmap` has failed so far. -/
def Mapped (mmap : ℕ → ℕ) (s : Snapshot) : Prop :=
  ∃ k, PagesTo mmap k ∧ s.returned = (List.range k).map mmap ∧ Inv mmap k s.heap s.live

/-- The pages of the live blocks are among those returned. -/
theorem Mapped.inside {mmap : ℕ → ℕ} {s : Snapshot} (mapped : Mapped mmap s) {a : Live}
    (ha : a ∈ s.live) :
    ∃ page ∈ s.returned, page ≠ mapFailed ∧ page ≤ a.adr ∧ a.adr < page + pageSize := by
  obtain ⟨k, fresh, returned, inv⟩ := mapped
  obtain ⟨p, i, marked, hadr, -⟩ := inv.head a ha
  have hp := inv.mapped_of_flag marked
  rw [inv.start p, if_pos hp] at hadr
  refine ⟨mmap p, ?_, fresh.ne_mapFailed hp, by omega, ?_⟩
  · rw [returned]
    exact List.mem_map_of_mem (List.mem_range.2 hp)
  · have hi : i.val < 16 := i.isLt
    simp only [minAlloc, pageSize] at hadr ⊢
    omega

theorem Mapped.disjoint {mmap : ℕ → ℕ} {s : Snapshot} (mapped : Mapped mmap s) :
    s.live.Pairwise fun a b => Disjoint (s.heap.extent a.adr) (s.heap.extent b.adr) := by
  obtain ⟨k, fresh, -, inv⟩ := mapped
  exact inv.disjoint fresh

/-- A call in which `mmap` does not fail leaves a snapshot with the invariant; one in which it fails
keeps `MAP_FAILED` as the start of a page. -/
theorem Mapped.exec_cases {mmap : ℕ → ℕ} {s : Snapshot} (env : MayFail mmap)
    (mapped : Mapped mmap s) (c : Call) :
    (mapFailed ∉ maps s.heap c ∧ Mapped mmap (s.exec c)) ∨
      (mapFailed ∈ maps s.heap c ∧ ∃ size, c = .alloc size ∧ (alloc s.heap size).1 = 0 ∧
        ∃ p, s.heap.start p = 0 ∧ (s.exec c).heap.start p = mapFailed) := by
  obtain ⟨k, fresh, returned, inv⟩ := mapped
  cases c with
  | alloc size =>
    cases inv.alloc_outcome fresh env size with
    | served k' fresh' works pages inv' =>
      exact .inl ⟨works, k', fresh', by rw [← pages, ← returned]; rfl, inv'⟩
    | failed p unmapped fails mem null start =>
      exact .inr ⟨mem, size, rfl, null, p, by rw [inv.start p, if_neg (by omega)], start⟩
  | dealloc adr =>
    refine .inl ⟨List.not_mem_nil, k, fresh, ?_, inv.dealloc fresh adr⟩
    rw [← returned]
    exact List.append_nil _

/-- Along every history of `alloc` and `dealloc` calls after `init_alloc`, in a process where `mmap`
returns fresh pages or fails, all calls survive exactly when no call of `mmap` fails in any of
them. -/
theorem survives_iff_mmap_succeeds {mmap : ℕ → ℕ} (env : MayFail mmap)
    {l : List (Event Snapshot Call)} {t : Snapshot} (run : Run Step (booted mmap) l t) :
    (∀ e ∈ l, Survives e) ↔ ∀ e ∈ l, mapFailed ∉ maps e.before.heap e.label := by
  refine run.forall_iff_of_keeps (I := Mapped mmap) ?_ ?_ ?_
  · exact ⟨0, ⟨by simp, by simp, by simp⟩, rfl, inv_initAlloc mmap⟩
  · rintro s c _ mapped ⟨⟩ works
    obtain ⟨-, mapped'⟩ | ⟨fails, -⟩ := mapped.exec_cases env c
    · exact mapped'
    · exact absurd fails works
  · rintro s c _ mapped ⟨⟩
    obtain ⟨works, mapped'⟩ | ⟨fails, size, rfl, null, p, unmapped, start⟩ := mapped.exec_cases env c
    · refine iff_of_true ⟨fun size called returned => ?_, mapped'.disjoint,
        fun _ _ _ fails => absurd fails works⟩ works
      cases called
      have new : (⟨(alloc s.heap size).1, size⟩ : Live) ∈ (s.exec (.alloc size)).live := by
        simp [Snapshot.exec, Pages.exec, returned]
      exact mapped'.inside new
    · refine iff_of_false (fun survives => ?_) (not_not.2 fails)
      have := (survives.retry size rfl null fails).2 p unmapped
      exact absurd (start.symm.trans this) (by decide)

/-- Two pages are mapped and one block is given back. -/
theorem survives_iff_mmap_succeeds_newPage :
    ∃ (l : List (Event Snapshot Call)) (t : Snapshot),
      Run Step (booted fun n => 0x10000 * (n + 1)) l t ∧
        l.map Event.label = [.alloc 264, .alloc 4096, .dealloc 0x10000] ∧ ∀ e ∈ l, Survives e := by
  have run : Run Step (booted fun n => 0x10000 * (n + 1)) _ _ :=
    ((Run.nil.snoc (.exec (c := .alloc 264))).snoc (.exec (c := .alloc 4096))).snoc
      (.exec (c := .dealloc 0x10000))
  have env : MayFail fun n => 0x10000 * (n + 1) := PagesTo.mayFail ⟨by decide, by decide, by decide⟩
  refine ⟨_, _, run, rfl, (survives_iff_mmap_succeeds env run).2 ?_⟩
  simp only [List.nil_append, List.cons_append, List.forall_mem_cons]
  exact ⟨by decide, by decide, by decide, List.forall_mem_nil _⟩

/-- The first call of `mmap` fails. -/
def failsOnce (n : ℕ) : ℕ := if n = 0 then mapFailed else 0x10000 * n

/-- After `mmap` has failed once, `alloc` does not ask for the page again: the next call hands out
the address `MAP_FAILED` itself. -/
theorem not_survives_failsOnce :
    MayFail failsOnce ∧ (alloc (initAlloc failsOnce) 8).1 = 0 ∧
      (alloc (alloc (initAlloc failsOnce) 8).2 8).1 = mapFailed ∧
      ∃ (l : List (Event Snapshot Call)) (t : Snapshot), Run Step (booted failsOnce) l t ∧
        l.map Event.label = [.alloc 8, .alloc 8] ∧ ∀ e ∈ l, ¬ Survives e := by
  have env : MayFail failsOnce := by
    refine ⟨by decide, fun m _ n _ other worksm worksn => ?_⟩
    have hm : m ≠ 0 := fun zero => worksm (if_pos zero)
    have hn : n ≠ 0 := fun zero => worksn (if_pos zero)
    simp only [failsOnce, hm, hn, if_false, pageSize]
    omega
  refine ⟨env, by decide, by decide, _, _,
    (Run.nil.snoc (.exec (c := .alloc 8))).snoc (.exec (c := .alloc 8)), rfl, ?_⟩
  simp only [List.nil_append, List.cons_append, List.forall_mem_cons]
  refine ⟨?_, ?_, List.forall_mem_nil _⟩
  · intro survives
    have kept := (survives.retry 8 rfl (by decide) (by decide)).2 ⟨0, by decide⟩ rfl
    exact absurd kept (by decide)
  · intro survives
    obtain ⟨page, mem, works, -⟩ := survives.inside 8 rfl (by decide)
    have only : (((booted failsOnce).exec (.alloc 8)).exec (.alloc 8)).returned = [mapFailed] := by
      decide
    exact works (List.mem_singleton.1 (only ▸ mem))

end SsuOs.Alloc.Pages
