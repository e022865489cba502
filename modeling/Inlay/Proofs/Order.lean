import Inlay.Proofs.EmbeddedSources

/-!
# The order of tasks

A compilation comes to its tasks one after another: to those that a task
starts on its way, and to the next one when a task is over. Of two tasks
that it comes to, one always comes later. What the names stand for at the
earlier one they stand for at the later one.
-/

namespace Inlay.Handlebars

open Compilation

variable {fs : FileSystem}

/-- Where the work goes on when a task is over: in its last state, with other blocks around it, or
after partials were read. -/
inductive Resumes (fs : FileSystem) (s : Compilation) : Compilation → Prop
  | there : Resumes fs s s
  | within (blocks : List Text) : Resumes fs s (inBlocks blocks s)
  | reads {names t} : ReadsAll fs names s t → Resumes fs s t

/-- The task is over when the work goes on in the second state. -/
def Precedes (fs : FileSystem) (task : Task) (s t : Compilation) : Prop :=
  ∃ code end', Runs fs task s code end' ∧ Resumes fs end' t

/-- The tasks that a compilation begins with: the template, and in the end the partials that may be
named at render time. -/
inductive Begins (fs : FileSystem) (options : Options) (hook : Option Hook) (template : Text) :
    Task → Compilation → Prop
  | template : Begins fs options hook template (.text template.escape) (initial options hook fs)
  | preload {code middle names name rest s} :
      Runs fs (.text template.escape) (initial options hook fs) code middle →
      preloaded middle.view = names ++ name :: rest → ReadsAll fs names middle s →
      Begins fs options hook template (.read name) s

/-- The compilation comes to the task, in this state. -/
def ComesTo (fs : FileSystem) (options : Options) (hook : Option Hook) (template : Text)
    (task : Task) (s : Compilation) : Prop :=
  ∃ first p, Begins fs options hook template first p ∧ Meets fs first p task s

/-- The second task comes later than the first one: on its way, or on the way of what can be
started when a task is over that came to the first one. -/
inductive Later (fs : FileSystem) (options : Options) (hook : Option Hook) (template : Text) :
    Task → Compilation → Task → Compilation → Prop
  | inside {task s task₁ s₁ task' s'} :
      ComesTo fs options hook template task s → Starts fs task s task₁ s₁ →
      Meets fs task₁ s₁ task' s' → Later fs options hook template task s task' s'
  | afterwards {first p task s second q task' s'} :
      ComesTo fs options hook template first p → Meets fs first p task s →
      Precedes fs first p q → Meets fs second q task' s' →
      Later fs options hook template task s task' s'

/-! ## One of two tasks comes later -/

theorem Meets.head_cases {task task' : Task} {s s' : Compilation} (h : Meets fs task s task' s') :
    task' = task ∧ s' = s ∨ ∃ task₁ s₁, Starts fs task s task₁ s₁ ∧ Meets fs task₁ s₁ task' s' := by
  induction h with
  | here => exact .inl ⟨rfl, rfl⟩
  | step _ hstarts ih =>
      rcases ih with ⟨rfl, rfl⟩ | ⟨task₁, s₁, hfirst, hmeets⟩
      · exact .inr ⟨_, _, hstarts, .here⟩
      · exact .inr ⟨task₁, s₁, hfirst, hmeets.step hstarts⟩

theorem Meets.trans {task task₁ task₂ : Task} {s s₁ s₂ : Compilation}
    (h₁ : Meets fs task s task₁ s₁) (h₂ : Meets fs task₁ s₁ task₂ s₂) :
    Meets fs task s task₂ s₂ := by
  induction h₂ with
  | here => exact h₁
  | step _ hstarts ih => exact ih.step hstarts

/-- Of two tasks that a task starts, one is over when the other is started. -/
theorem Starts.precedes {task task₁ task₂ : Task} {s s₁ s₂ : Compilation}
    (h₁ : Starts fs task s task₁ s₁) (h₂ : Starts fs task s task₂ s₂) :
    task₁ = task₂ ∧ s₁ = s₂ ∨ Precedes fs task₁ s₁ s₂ ∨ Precedes fs task₂ s₂ s₁ := by
  cases h₁ with
  | text => cases h₂ with | text => exact .inl ⟨rfl, rfl⟩
  | head =>
      cases h₂ with
      | head => exact .inl ⟨rfl, rfl⟩
      | tail hnode => exact .inr (.inl ⟨_, _, hnode, .there⟩)
  | tail hnode =>
      cases h₂ with
      | head => exact .inr (.inr ⟨_, _, hnode, .there⟩)
      | tail hnode' => exact .inl ⟨rfl, (hnode'.unique hnode).2⟩
  | referenceRead =>
      cases h₂ with
      | referenceRead => exact .inl ⟨rfl, rfl⟩
      | referenceEmbed hread => exact .inr (.inl ⟨_, _, hread, .there⟩)
  | referenceEmbed hread =>
      cases h₂ with
      | referenceRead => exact .inr (.inr ⟨_, _, hread, .there⟩)
      | referenceEmbed hread' =>
          obtain ⟨-, rfl⟩ := hread.unique hread'
          exact .inl ⟨rfl, rfl⟩
  | enclosed hblocks =>
      cases h₂ with
      | enclosed hblocks' =>
          obtain ⟨rfl, rfl⟩ := List.cons.injEq .. ▸ hblocks.symm.trans hblocks'
          exact .inl ⟨rfl, rfl⟩
  | blockRead =>
      cases h₂ with
      | blockRead => exact .inl ⟨rfl, rfl⟩
      | blockApart hread => exact .inr (.inl ⟨_, _, hread, .there⟩)
      | blockEmbed hread => exact .inr (.inl ⟨_, _, hread, .within _⟩)
  | blockApart hread hruntime =>
      cases h₂ with
      | blockRead => exact .inr (.inr ⟨_, _, hread, .there⟩)
      | blockApart hread' =>
          obtain ⟨-, rfl⟩ := hread.unique hread'
          exact .inl ⟨rfl, rfl⟩
      | blockEmbed hread' hruntime' =>
          obtain ⟨-, rfl⟩ := hread.unique hread'
          simp [hruntime] at hruntime'
  | blockEmbed hread hruntime =>
      cases h₂ with
      | blockRead => exact .inr (.inr ⟨_, _, hread, .within _⟩)
      | blockApart hread' hruntime' =>
          obtain ⟨-, rfl⟩ := hread.unique hread'
          simp [hruntime] at hruntime'
      | blockEmbed hread' =>
          obtain ⟨-, rfl⟩ := hread.unique hread'
          exact .inl ⟨rfl, rfl⟩
  | inline => cases h₂ with | inline => exact .inl ⟨rfl, rfl⟩
  | found _ hraw hparts =>
      cases h₂ with
      | found _ hraw' hparts' =>
          obtain rfl := Option.some.inj (hraw.symm.trans hraw')
          obtain ⟨rfl, rfl⟩ := Prod.mk.injEq .. ▸ hparts.symm.trans hparts'
          exact .inl ⟨rfl, rfl⟩
  | unit _ _ hsource =>
      cases h₂ with
      | unit _ _ hsource' =>
          obtain rfl := Option.some.inj (hsource.symm.trans hsource')
          exact .inl ⟨rfl, rfl⟩
  | apart => cases h₂ with | apart => exact .inl ⟨rfl, rfl⟩
  | embedOpen hsource hruntime =>
      cases h₂ with
      | embedOpen hsource' =>
          obtain rfl := Option.some.inj (hsource.symm.trans hsource')
          exact .inl ⟨rfl, rfl⟩
      | embedGuarded _ hruntime' => simp [hruntime] at hruntime'
  | embedGuarded hsource hruntime =>
      cases h₂ with
      | embedOpen _ hruntime' => simp [hruntime] at hruntime'
      | embedGuarded hsource' =>
          obtain rfl := Option.some.inj (hsource.symm.trans hsource')
          exact .inl ⟨rfl, rfl⟩

section Compiling

variable {options : Options} {hook : Option Hook} {template : Text}

theorem Later.step {task task' task'' : Task} {s s' s'' : Compilation}
    (h : Later fs options hook template task s task' s') (hstarts : Starts fs task' s' task'' s'') :
    Later fs options hook template task s task'' s'' := by
  cases h with
  | inside hcomes hfirst hmeets => exact .inside hcomes hfirst (hmeets.step hstarts)
  | afterwards hcomes hfirst hprecedes hmeets =>
      exact .afterwards hcomes hfirst hprecedes (hmeets.step hstarts)

/-- Of two tasks on the way of a task, one comes later. -/
theorem ComesTo.later_or_later {first task task' : Task} {p s s' : Compilation}
    (hfirst : ComesTo fs options hook template first p) (h : Meets fs first p task s)
    (h' : Meets fs first p task' s') :
    task = task' ∧ s = s' ∨ Later fs options hook template task s task' s' ∨
      Later fs options hook template task' s' task s := by
  induction h with
  | here =>
      rcases h'.head_cases with ⟨rfl, rfl⟩ | ⟨task₁, s₁, hstarts, hmeets⟩
      · exact .inl ⟨rfl, rfl⟩
      · exact .inr (.inl (.inside hfirst hstarts hmeets))
  | @step task₁ s₁ task s hmeets hstarts ih =>
      obtain ⟨root, r, hbegins, hroot⟩ := hfirst
      have hcomes : ∀ {task₂ s₂}, Meets fs first p task₂ s₂ →
          ComesTo fs options hook template task₂ s₂ :=
        fun h => ⟨root, r, hbegins, hroot.trans h⟩
      rcases ih with ⟨rfl, rfl⟩ | hlater | hlater
      · exact .inr (.inr (.inside (hcomes h') hstarts .here))
      · cases hlater with
        | inside _ hother hmeets' =>
            -- the two ways part here: one of the two tasks is over when the other is started
            rcases hstarts.precedes hother with ⟨rfl, rfl⟩ | hprecedes | hprecedes
            · rcases hmeets'.head_cases with ⟨rfl, rfl⟩ | ⟨task₂, s₂, hnext, hmeets₂⟩
              · exact .inl ⟨rfl, rfl⟩
              · exact .inr (.inl (.inside (hcomes (hmeets.step hstarts)) hnext hmeets₂))
            · exact .inr (.inl (.afterwards (hcomes (hmeets.step hstarts)) .here hprecedes hmeets'))
            · exact .inr (.inr (.afterwards (hcomes (hmeets.step hother)) hmeets' hprecedes .here))
        | afterwards hcomes' hway hprecedes hmeets' =>
            exact .inr (.inl (.afterwards hcomes' (hway.step hstarts) hprecedes hmeets'))
      · exact .inr (.inr (hlater.step hstarts))

/-- Of two reads in one list, one is over when the other is started. -/
theorem ReadsAll.precedes {names names' rest rest' : List Text} {name name' : Text}
    {s t t' : Compilation} (h : ReadsAll fs names s t) (h' : ReadsAll fs names' s t')
    (hsame : names ++ name :: rest = names' ++ name' :: rest') :
    name = name' ∧ t = t' ∨ Precedes fs (.read name) t t' ∨ Precedes fs (.read name') t' t := by
  induction h generalizing names' with
  | nil =>
      cases h' with
      | nil => exact .inl ⟨List.head_eq_of_cons_eq hsame, rfl⟩
      | cons hread hrest =>
          obtain rfl := List.head_eq_of_cons_eq hsame
          exact .inr (.inl ⟨_, _, hread, .reads hrest⟩)
  | cons hread hrest ih =>
      cases h' with
      | nil =>
          obtain rfl := List.head_eq_of_cons_eq hsame
          exact .inr (.inr ⟨_, _, hread, .reads hrest⟩)
      | cons hread' hrest' =>
          obtain rfl := List.head_eq_of_cons_eq hsame
          obtain ⟨-, rfl⟩ := hread.unique hread'
          exact ih hrest' (List.tail_eq_of_cons_eq hsame)

/-- Of two tasks that a compilation begins with, one is over when the other is started. -/
theorem Begins.precedes {task task' : Task} {s s' : Compilation}
    (h : Begins fs options hook template task s) (h' : Begins fs options hook template task' s') :
    task = task' ∧ s = s' ∨ Precedes fs task s s' ∨ Precedes fs task' s' s := by
  cases h with
  | template =>
      cases h' with
      | template => exact .inl ⟨rfl, rfl⟩
      | preload hrun _ hreads => exact .inr (.inl ⟨_, _, hrun, .reads hreads⟩)
  | @preload _ middle names name rest _ hrun hnames hreads =>
      cases h' with
      | template => exact .inr (.inr ⟨_, _, hrun, .reads hreads⟩)
      | @preload _ _ names' name' rest' _ hrun' hnames' hreads' =>
          obtain ⟨-, rfl⟩ := hrun.unique hrun'
          refine (hreads.precedes hreads' (hnames.symm.trans hnames')).imp_left ?_
          rintro ⟨rfl, rfl⟩
          exact ⟨rfl, rfl⟩

/-- Of two tasks that a compilation comes to, one comes later. -/
theorem ComesTo.later_total {task task' : Task} {s s' : Compilation}
    (h : ComesTo fs options hook template task s) (h' : ComesTo fs options hook template task' s') :
    task = task' ∧ s = s' ∨ Later fs options hook template task s task' s' ∨
      Later fs options hook template task' s' task s := by
  obtain ⟨first, p, hbegins, hmeets⟩ := h
  obtain ⟨first', p', hbegins', hmeets'⟩ := h'
  have hfirst : ComesTo fs options hook template first p := ⟨first, p, hbegins, .here⟩
  have hfirst' : ComesTo fs options hook template first' p' := ⟨first', p', hbegins', .here⟩
  rcases hbegins.precedes hbegins' with ⟨rfl, rfl⟩ | hprecedes | hprecedes
  · exact hfirst.later_or_later hmeets hmeets'
  · exact .inr (.inl (.afterwards hfirst hmeets hprecedes hmeets'))
  · exact .inr (.inr (.afterwards hfirst' hmeets' hprecedes hmeets))

/-! ## What names stand for -/

theorem Begins.sourced {task : Task} {s : Compilation} (h : Begins fs options hook template task s) :
    s.names.Sourced := by
  have hinitial : (initial options hook fs).names.Sourced := fun _ _ h => by cases h
  cases h with
  | template => exact hinitial
  | preload hrun _ hreads => exact (hreads.works.keeps (hrun.keeps hinitial).2).2

theorem ComesTo.sourced {task : Task} {s : Compilation}
    (h : ComesTo fs options hook template task s) : s.names.Sourced := by
  obtain ⟨first, p, hbegins, hmeets⟩ := h
  exact (hmeets.keeps hbegins.sourced).2

theorem Resumes.keeps {s t : Compilation} (h : Resumes fs s t) (hs : s.names.Sourced) :
    s.names.Keeps t.names ∧ t.names.Sourced := by
  cases h with
  | there => exact ⟨.refl _, hs⟩
  | within blocks => exact ⟨.refl _, hs⟩
  | reads hreads => exact hreads.works.keeps hs

/-- A name that was resolved by a read stands for a cached source at all that comes later. -/
theorem Later.resolve_mem {name : Text} {task : Task} {s s' : Compilation}
    (h : Later fs options hook template (.read name) s task s') (hname : Resolves fs s name) :
    s'.names.resolve name ∈ s'.names.cached := by
  cases h with
  | inside hcomes hstarts hmeets =>
      have hs := hcomes.sourced
      have hkeeps := (hmeets.keeps (hstarts.keeps hs).2).1
      refine hkeeps.resolve_mem ?_
      -- a read starts nothing but the unit of a source that it found
      cases hstarts with
      | @found _ _ raw source target hnew =>
          rw [names_found]
          exact hs.resolve_cache_mem hnew target source
  | afterwards hcomes hway hprecedes hmeets =>
      obtain ⟨code, q, hrun, hresumes⟩ := hprecedes
      have hp := hcomes.sourced
      obtain ⟨code', t, hread, hkeeps, -⟩ := hway.exists_run hrun hp
      have hresolved := hread.mem_cached_of_read (hway.keeps hp).2 hname
      have hq := hresumes.keeps (hrun.keeps hp).2
      exact ((hkeeps.trans hq.1).trans (hmeets.keeps hq.2).1).resolve_mem hresolved

end Compiling

end Inlay.Handlebars
