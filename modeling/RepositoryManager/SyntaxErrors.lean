import RepositoryManager.Mending
import RepositoryManager.Schedules
import RepositoryManager.SyntaxTree
import RepositoryManager.WalkTermination

/-! # Messages with syntax errors

`processMsg` walks over whatever tree the rule `credential` leaves, and never asks for the
number of errors. What a damaged message leads to is decided by what is left of it when
the lexer, the rules and the walker have got over the damage.
-/

namespace RepositoryManager

open ByteString Interaction Scanner Lexer RecoveringParser

/-- The platform with the generated lexer and parser. A lexer or a walk that takes more
    passes than it is given counts as one without end. -/
def Platform.generated (p : Platform) (lexFuel walkFuel : Nat) : Platform :=
  { p with
    antlr := fun msg => (fillBuffer lexFuel msg).map fun events => (parse (visible events)).1
    walkFuel }

/-- `processMsg` builds a credential from the message. -/
def Builds (p : Platform) (im : TransportService) : Prop :=
  ∃ lexFuel walkFuel c h q, Prog.Steps (processMsg (p.generated lexFuel walkFuel) im) h q ∧
    ⟨.note (.built im.socketMsg c), ()⟩ ∈ h

/-- It is passed to `verifyCredential`, which is called when `setPolicy` has returned. -/
def ReachesVerify (p : Platform) (im : TransportService) : Prop :=
  Builds p im ∧ (im.ss.setPolicy im.policy).isSome

/-- The lexer reports an error, or the rule `credential` does on the tokens of the message. -/
def ReportsError (msg : Str) : Prop :=
  (∃ events rest, Scanner.Reads lexPass msg events rest ∧ .error ∈ events) ∨
    ∃ ts, Shows msg ts ∧ 0 < (parse ts).2.errorCount

/-- The visible tokens of the message have a derivable prefix. -/
def Derivable (msg : Str) : Prop :=
  ∃ events rest, Scanner.Reads lexPass msg events rest ∧ Parser.Derives (visible events)

/-- Syntax errors stop a credential, and nothing else does. -/
def ErrorsStop (p : Platform) (im : TransportService) : Prop :=
  (ReportsError im.socketMsg → ¬ Builds p im ∧ ¬ ReachesVerify p im) ∧
    (ReachesVerify p im ↔ Derivable im.socketMsg)

/-- The walker finds the markers it looks for, or leaves the list at its last child. -/
def Returning (children : List Str) : Prop :=
  AstWalker.Walkable children ∨ AstWalker.Overruns children

/-- The grammar with its productions for errors derives a credential of the tokens, and the
    walk over what it keeps of them returns. -/
def Mendable (ts : List Token) : Prop := ∃ children, Mended ts children ∧ Returning children

/-! ## What the lexer reports and shows -/

section Messages

variable {msg : Str} {ts : List Token}

theorem visible_append (events more : List Lexer.Event) :
    visible (events ++ more) = visible events ++ visible more := by
  induction events with
  | nil => rfl
  | cons e events ih =>
      rw [List.cons_append, visible_cons, ih, visible_cons e events, List.append_assoc]

theorem derivable_iff (shown : Shows msg ts) : Derivable msg ↔ Parser.Derives ts := by
  obtain ⟨events, run, rfl⟩ := shown
  constructor
  · rintro ⟨part, rest, reads, c, derived, begins⟩
    obtain ⟨more, rfl⟩ := reads.begins run
    refine ⟨c, derived, begins.trans ?_⟩
    rw [visible_append, Parser.typesOf_append]
    exact List.prefix_append _ _
  · intro derives
    obtain ⟨rest, reads⟩ := run.reads
    exact ⟨events, rest, reads, derives⟩

theorem clean_of_quiet (shown : Shows msg ts) (quiet : ¬ ReportsError msg) : Clean msg ts := by
  obtain ⟨events, run, same⟩ := shown
  obtain ⟨rest, reads⟩ := run.reads
  exact ⟨events, run, fun reported => quiet (.inl ⟨events, rest, reads, reported⟩), same⟩

theorem quiet_of_clean (clean : Clean msg ts) (derives : Parser.Derives ts) :
    ¬ ReportsError msg := by
  rintro (⟨part, rest, reads, reported⟩ | ⟨us, shown, errors⟩)
  · obtain ⟨events, run, noError, -⟩ := clean
    exact noError ((reads.begins run).subset reported)
  · rw [← clean.shows.unique shown, (parse_accepts derives).2] at errors
    exact Nat.lt_irrefl 0 errors

/-! ## Which messages a credential is built from -/

theorem mendable_iff : Mendable ts ↔
    (parse ts).1.text = credentialS ∧ Returning (parse ts).1.children := by
  constructor
  · rintro ⟨children, mended, returns⟩
    rw [mended_iff.mp mended]
    exact ⟨rfl, returns⟩
  · rintro ⟨root, returns⟩
    exact ⟨_, mended_iff.mpr (by rw [← root]), returns⟩

theorem nothing_mendable : ¬ Mendable [] := by
  intro mendable
  have root := (mendable_iff.mp mendable).1
  revert root
  decide

/-- A run of `processMsg` that has built a credential has lexed the message and has come to the
    end of the walk. -/
theorem parts_of_builds {p : Platform} {im : TransportService} (builds : Builds p im) :
    ∃ lexFuel events mktime now walkFuel c, fillBuffer lexFuel im.socketMsg = some events ∧
      AstWalker.getCredential (parse (visible events)).1 mktime now walkFuel = some (some c) := by
  obtain ⟨lexFuel, walkFuel, c, h, q, run, built⟩ := builds
  have stopped : ∀ {h q}, Prog.Steps (abort : Server TransportService) h q → h = [] := by
    intro h q run
    rcases Prog.steps_call.mp run with ⟨rfl, -⟩ | ⟨r, -⟩
    · rfl
    · exact r.elim
  unfold processMsg at run
  split at run
  · rw [(Prog.steps_ret.mp run).1] at built
    cases built
  cases lexed : fillBuffer lexFuel im.socketMsg with
  | none =>
      simp only [Platform.generated, lexed, Option.map_none] at run
      rw [stopped run] at built
      cases built
  | some events =>
      simp only [Platform.generated, lexed, Option.map_some] at run
      rcases Prog.steps_call.mp run with ⟨rfl, -⟩ | ⟨clock, h, rfl, rest⟩
      · cases built
      have rest : Prog.Steps (buildClient (p.generated lexFuel walkFuel) im
        (AstWalker.getCredential (parse (visible events)).1 p.clib.mktime
          (p.clib.gmtime (clock 0)) walkFuel)) h q := rest
      have built : ⟨.note (.built im.socketMsg c), ()⟩ ∈ h :=
        (List.mem_cons.mp built).resolve_left (by simp)
      cases walked : AstWalker.getCredential (parse (visible events)).1 p.clib.mktime
        (p.clib.gmtime (clock 0)) walkFuel with
      | none =>
          rw [walked] at rest
          rw [stopped rest] at built
          cases built
      | some result =>
          cases result with
          | some c => exact ⟨lexFuel, events, _, _, walkFuel, c, lexed, walked⟩
          | none =>
              rw [walked] at rest
              rcases Prog.steps_call.mp rest with ⟨rfl, -⟩ | ⟨_, h, rfl, closed⟩
              · cases built
              · rw [(Prog.steps_ret.mp closed).1] at built
                simp at built

/-- The tree of the message is taken for a credential, and the walk over it returns. -/
theorem builds_iff (p : Platform) (im : TransportService) :
    Builds p im ↔ ∃ ts, Shows im.socketMsg ts ∧ Mendable ts := by
  constructor
  · intro builds
    obtain ⟨lexFuel, events, mktime, now, walkFuel, c, lexed, walked⟩ := parts_of_builds builds
    refine ⟨visible events, ⟨events, scans_of_scan lexed, rfl⟩, mendable_iff.mpr ?_⟩
    exact (AstWalker.getCredential_returns_iff _ _ _).mp ⟨walkFuel, c, walked⟩
  · rintro ⟨ts, ⟨events, lexed, rfl⟩, mendable⟩
    let clock : Nat → Int := fun _ => 0
    obtain ⟨walkFuel, c, walked⟩ := (AstWalker.getCredential_returns_iff _ p.clib.mktime
      (p.clib.gmtime (clock 0))).mpr (mendable_iff.mp mendable)
    have nonempty : im.socketMsg ≠ [] := by
      intro empty
      rw [empty] at lexed
      exact nothing_mendable (shows_nil.mp ⟨events, lexed, rfl⟩ ▸ mendable)
    refine ⟨events.length + 1, walkFuel, c, [⟨.time, clock⟩, ⟨.note (.built im.socketMsg c), ()⟩],
      checkClient (p.generated (events.length + 1) walkFuel) im c, ?_, by simp⟩
    rw [processMsg, if_neg nonempty]
    have filled : fillBuffer (events.length + 1) im.socketMsg = some events := scan_of_scans lexed
    simp only [Platform.generated, filled, Option.map_some]
    refine Prog.steps_call.mpr (.inr ⟨clock, _, rfl, ?_⟩)
    show Prog.Steps (buildClient _ im (AstWalker.getCredential _ _ _ _)) _ _
    rw [walked]
    exact .call (.refl _)

end Messages

/-- The errors of a message stop it, and nothing else does, exactly in two cases. It is read
    as it stands, with a credential at its beginning, and the walker and the policy do not
    fail; or it has no derivable prefix, and nothing that is derived of its damage returns. -/
theorem errorsStop_iff (p : Platform) (im : TransportService) :
    ErrorsStop p im ↔
      (∃ c rest, Parser.Derived c ∧ Clean im.socketMsg (c.shown ++ rest) ∧
        Returning c.children ∧ (im.ss.setPolicy im.policy).isSome) ∨
      (¬ Derivable im.socketMsg ∧ ∀ ts, Shows im.socketMsg ts → ¬ Mendable ts) := by
  constructor
  · rintro ⟨stops, only⟩
    by_cases derivable : Derivable im.socketMsg
    · have reaches := only.mpr derivable
      obtain ⟨ts, shown, mendable⟩ := (builds_iff p im).mp reaches.1
      have quiet : ¬ ReportsError im.socketMsg := fun reported => (stops reported).2 reaches
      obtain ⟨c, rest, derived, rfl⟩ :=
        (derives_iff (fromGrammar_of_shows shown)).mp ((derivable_iff shown).mp derivable)
      have returns := (mendable_iff.mp mendable).2
      rw [parse_shown derived] at returns
      exact .inl ⟨c, rest, derived, clean_of_quiet shown quiet, returns, reaches.2⟩
    · refine .inr ⟨derivable, fun ts shown mendable => ?_⟩
      have underived : ¬ Parser.Derives ts := (derivable_iff shown).not.mp derivable
      have errors : 0 < (parse ts).2.errorCount :=
        Nat.pos_of_ne_zero ((parse_errors ts).not.mpr underived)
      exact (stops (.inr ⟨ts, shown, errors⟩)).1 ((builds_iff p im).mpr ⟨ts, shown, mendable⟩)
  · rintro (⟨c, rest, derived, clean, returns, loads⟩ | ⟨underivable, lost⟩)
    · have derives : Parser.Derives (c.shown ++ rest) :=
        (derives_iff (fromGrammar_of_shows clean.shows)).mpr ⟨c, rest, derived, rfl⟩
      have mendable : Mendable (c.shown ++ rest) := by
        rw [mendable_iff, parse_shown derived]
        exact ⟨rfl, returns⟩
      have builds : Builds p im := (builds_iff p im).mpr ⟨_, clean.shows, mendable⟩
      exact ⟨fun reported => absurd reported (quiet_of_clean clean derives),
        iff_of_true ⟨builds, loads⟩ ((derivable_iff clean.shows).mpr derives)⟩
    · have stopped : ¬ Builds p im := fun builds => by
        obtain ⟨ts, shown, mendable⟩ := (builds_iff p im).mp builds
        exact lost ts shown mendable
      exact ⟨fun _ => ⟨stopped, fun reaches => stopped reaches.1⟩,
        iff_of_false (fun reaches => stopped reaches.1) underivable⟩

/-- The tokens of a credential, with a second `)` behind its first start time. -/
def doubledParen : List Token :=
  AstWalker.bobCredential.shown.insertIdx 38 (Grammar.word .closeParen)

theorem doubledParen_repaired : parse doubledParen =
    ({ text := credentialS, children := AstWalker.bobCredential.children },
      { ahead := [], errorRecovery := false, errorCount := 1, lastErrorIndex := none }) := by
  decide +kernel

theorem doubledParen_clean : Clean (print doubledParen) doubledParen := by
  have printable : Printable AstWalker.bobCredential := by
    unfold Printable Ordinary
    constructor <;> decide
  have kept := (kept_iff_printable AstWalker.bobCredential).mpr printable
  have bounds : 38 ≤ AstWalker.bobCredential.shown.length := by decide
  refine clean_print (fun t member => ?_) (fun t member => ?_)
  · rcases (List.mem_insertIdx bounds).mp member with rfl | inside
    · exact .word (by decide)
    · exact credential_tokens _ t inside
  · rcases (List.mem_insertIdx bounds).mp member with rfl | inside
    · exact kept_word (by decide)
    · exact kept t inside

theorem doubledParen_builds :
    ¬ ErrorsStop villagePlatform (childImage [] 7 (print doubledParen)) := by
  rintro ⟨stops, -⟩
  have message : (childImage [] 7 (print doubledParen)).socketMsg = print doubledParen :=
    cstr_of_clean (by decide +kernel)
  have shown := doubledParen_clean.shows
  rw [← message] at shown
  refine (stops (.inr ⟨_, shown, ?_⟩)).1 ((builds_iff _ _).mpr ⟨_, shown, mendable_iff.mpr ?_⟩)
  · rw [doubledParen_repaired]
    exact Nat.one_pos
  · rw [doubledParen_repaired]
    exact ⟨rfl, .inl (AstWalker.credential_walkable _ (List.cons_ne_nil _ _) (by decide)
      (by decide))⟩

end RepositoryManager
