import BlockWalk.Proofs.Consuming
import BlockWalk.Proofs.DocumentForms
import BlockWalk.Proofs.PrintedNodes

/-!
# Selections, printed

A command that selects blocks prints each of them before it asks for the next one. It does not keep
them, but what it has printed when it ends is what would be printed of all blocks if the traversal
were drained first: this is an induction over the pulls, where the blocks given out so far are on
the one side and their lines on the other (`Command.printBlocks_eq_drain`). So the report of a
command can be read off a drain.

Whatever is printed stands on lines of its own. No identifier and no JSON text has an end of line in
it, so the lines of an output are known from the output (`Command.Lines.unique`).

* `Command.Tells` — what a report says about a selection.
* `Command.tells_reported` — the report that is made of a selection says it.
* `Command.select_reports_drain` — the report of a command says it about a drain over the folder of
  its store.
-/

namespace BlockWalk

open Store FileTree

namespace Command

/-! ## Reports of selections -/

/-- The lines of blocks. -/
def printed (blocks : List Block) : String := String.join (blocks.map fun b => line b.cid.toText)

theorem printed_snoc (blocks : List Block) (b : Block) :
    printed (blocks ++ [b]) = printed blocks ++ line b.cid.toText := by
  simp [printed, String.join_append]

/-- The report that is made of a selection. -/
def reported (sel : Traversal.Selection) : Report :=
  match sel.outcome with
  | .ok ρ => finish (printed sel.blocks) (some ρ)
  | .error ε => ⟨printed sel.blocks, .error ("Traversal failed" :: ε.chain)⟩

/-- A traversal that gives no more blocks is reported by its ending. -/
theorem finish_resolution? (out : String) (t : Traversal) :
    finish out t.resolution? = finish out (some t.ending) := by
  cases h : t.resolution? with
  | none =>
    rw [Traversal.ending, h]
    rfl
  | some ρ =>
    rw [Traversal.ending, h]
    rfl

section

variable {m : Type → Type} [Monad m] [LawfulMonad m] (read : BlockReader m) (pulls : Nat)

/-- Blocks are given out and printed in step, after those that were before. -/
theorem printBlocks_eq_drainFrom (before : List Block) (t : Traversal) :
    printBlocks read pulls (printed before.reverse) t
      = Option.map reported <$> Traversal.drainFrom read .standard pulls before t := by
  induction pulls generalizing before t with
  | zero =>
    rw [printBlocks, Traversal.drainFrom, map_pure]
    rfl
  | succ pulls ih =>
    rw [printBlocks, Traversal.drainFrom, map_bind]
    refine bind_congr fun answer => ?_
    obtain ⟨ε | _ | b, u⟩ := answer
    · dsimp only
      rw [map_pure]
      rfl
    · dsimp only
      rw [map_pure, finish_resolution?]
      rfl
    · dsimp only
      rw [← ih, List.reverse_cons, printed_snoc]

/-- **To print blocks as they come** is to drain the traversal and to report what came of it. -/
theorem printBlocks_eq_drain (t : Traversal) :
    printBlocks read pulls "" t = Option.map reported <$> t.drain read .standard pulls :=
  printBlocks_eq_drainFrom read pulls [] t

end

/-! ## Lines -/

/-- A text consists of lines, and none of them ends before its end. -/
structure Lines (out : String) (texts : List String) : Prop where
  /-- one line after the other -/
  joined : out = String.join (texts.map line)
  /-- no line is two -/
  whole : ∀ s ∈ texts, '\n' ∉ s.toList

/-- A line goes to the first end of a line. -/
theorem line_append_inj {s s' rest rest' : String} (h : '\n' ∉ s.toList) (h' : '\n' ∉ s'.toList)
    (same : line s ++ rest = line s' ++ rest') : s = s' ∧ rest = rest' := by
  have upTo {s rest : String} (h : '\n' ∉ s.toList) :
      (line s ++ rest).toList.takeWhile (· ≠ '\n') = s.toList := by
    have before : ∀ c ∈ s.toList, (decide (c ≠ '\n')) = true := fun c hc =>
      decide_eq_true fun newline => h (newline ▸ hc)
    rw [line, String.toList_append, String.toList_append, List.append_assoc,
      List.takeWhile_append_of_pos before]
    simp
  have first : s = s' := String.toList_inj.1 (by rw [← upTo h, same, upTo h'])
  subst first
  exact ⟨rfl, (String.append_right_inj _).1 same⟩

/-- The lines of a text are known from it. -/
theorem Lines.unique {out : String} {texts texts' : List String} (h : Lines out texts)
    (h' : Lines out texts') : texts = texts' := by
  have same := h.joined.symm.trans h'.joined
  induction texts generalizing out texts' with
  | nil =>
    cases texts' with
    | nil => rfl
    | cons s' texts' => simp [String.join_cons, line] at same
  | cons s texts ih =>
    cases texts' with
    | nil => simp [String.join_cons, line] at same
    | cons s' texts' =>
      obtain ⟨hs, htexts⟩ := List.forall_mem_cons.1 h.whole
      obtain ⟨hs', htexts'⟩ := List.forall_mem_cons.1 h'.whole
      rw [List.map_cons, List.map_cons, String.join_cons, String.join_cons] at same
      obtain ⟨rfl, rest⟩ := line_append_inj hs hs' same
      rw [ih ⟨rfl, htexts⟩ ⟨rest, htexts'⟩ rest]

/-- Two texts after each other have the lines of both. -/
theorem lines_append {out out' : String} {texts texts' : List String} (h : Lines out texts)
    (h' : Lines out' texts') : Lines (out ++ out') (texts ++ texts') := by
  refine ⟨?_, List.forall_mem_append.2 ⟨h.whole, h'.whole⟩⟩
  rw [h.joined, h'.joined, List.map_append, String.join_append]

/-- A line has one line. -/
theorem lines_line {s : String} (h : '\n' ∉ s.toList) : Lines (line s) [s] := by
  refine ⟨?_, List.forall_mem_singleton.2 h⟩
  simp [String.join_cons]

/-- Blocks are printed one a line. -/
theorem lines_printed (blocks : List Block) :
    Lines (printed blocks) (blocks.map fun b => b.cid.toText) := by
  refine ⟨?_, List.forall_mem_map.2 fun b _ => not_mem_fileName (by decide) (by decide) b.cid⟩
  rw [printed, List.map_map]
  rfl

/-- The lines that follow those of the blocks: if instructions were left over, one that they can be
read back from. -/
inductive Noted : Except TraversalError Resolution → List String → Prop
  /-- nothing was left over -/
  | resolved : Noted (.ok .resolved) []
  /-- the instructions that were left over, as JSON -/
  | unresolved {rest : List Selector} {text : String} {v : Json}
      (parsed : Json.ofText? text = some v) (means : Selector.programOfJson v = .ok rest) :
      Noted (.ok (.unresolved rest)) ["The selector wasn't fully resolved: " ++ text]
  /-- the traversal failed -/
  | failed (ε : TraversalError) : Noted (.error ε) []

/-- **What a report says about a selection.** -/
structure Tells (sel : Traversal.Selection) (report : Report) : Prop where
  /-- the blocks in order, one a line, and what was left over -/
  out : ∃ notes, Noted sel.outcome notes
    ∧ Lines report.out ((sel.blocks.map fun b => b.cid.toText) ++ notes)
  /-- two is the exit code if instructions were left over, and only then -/
  unresolved : report.ending = .ok 2 ↔ ∃ rest, sel.outcome = .ok (.unresolved rest)
  /-- the command succeeds if the whole program was done, and only then -/
  resolved : report.ending = .ok 0 ↔ sel.outcome = .ok .resolved
  /-- the command fails if the traversal failed, and only then -/
  failed : (∃ chain, report.ending = .error chain) ↔ ∃ ε, sel.outcome = .error ε

theorem lines_reported (sel : Traversal.Selection) :
    ∃ notes, Noted sel.outcome notes
      ∧ Lines (reported sel).out ((sel.blocks.map fun b => b.cid.toText) ++ notes) := by
  obtain ⟨blocks, ε | _ | rest⟩ := sel
  · refine ⟨[], .failed ε, ?_⟩
    rw [List.append_nil]
    exact lines_printed blocks
  · refine ⟨[], .resolved, ?_⟩
    rw [List.append_nil]
    exact lines_printed blocks
  · have plain := (Selector.plain_programToJson rest).mono (m := Json.maxDepth) (by decide)
    have means := Selector.programOfJson_eq_ok_iff.2 (Selector.meansProgram_programToJson rest)
    have whole : '\n' ∉ ("The selector wasn't fully resolved: "
        ++ (Selector.programToJson rest).compact).toList := by
      rw [String.toList_append, List.mem_append, not_or]
      exact ⟨by decide, Json.newline_not_mem_compact plain.floatFree⟩
    exact ⟨_, .unresolved plain.ofText?_compact means,
      lines_append (lines_printed blocks) (lines_line whole)⟩

/-- **The report that is made of a selection** says all about it. -/
theorem tells_reported (sel : Traversal.Selection) : Tells sel (reported sel) where
  out := lines_reported sel
  unresolved := by
    obtain ⟨blocks, ε | _ | rest⟩ := sel <;> simp [reported, finish, unresolvedCode]
  resolved := by
    obtain ⟨blocks, ε | _ | rest⟩ := sel <;> simp [reported, finish, unresolvedCode]
  failed := by
    obtain ⟨blocks, ε | _ | rest⟩ := sel <;> simp [reported, finish]

/-! ## Commands that select blocks -/

variable {config : Config} {store : Option String} {t u : FileTree} {s : Store (StateM FileTree)}
  {file : String} {β : Bytes}

/-- A store that is opened is that of the folder that was chosen. -/
theorem eq_store_of_openStore (h : (openStore files config store).run.run t = (.ok s, u)) :
    ∃ path, (store <|> config.storePath) = some path ∧ s = FileTree.store (.ofText path) := by
  cases chosen : store <|> config.storePath with
  | none =>
    rw [openStore, chosen] at h
    cases congrArg Prod.fst h
  | some path =>
    obtain ⟨f, hf, rfl⟩ := (openStore_eq_ok_iff chosen).1 h
    obtain ⟨rfl, -⟩ := openFolder_eq_ok hf
    exact ⟨path, rfl, rfl⟩

/-- **What a command does that selects blocks**: it fails, having printed nothing, if the content of
its file is no document or its store is not opened, and else it reports what a drain gives. -/
theorem run_select (config : Config) (store : Option String) (pulls : Nat)
    (read : t.read (.ofText file) = .ok β) :
    (run files config pulls (.select file store)).run t =
      match Document.ofBytes β with
      | .error ε => (some ⟨"", .error ("Invalid selector document" :: ε.chain)⟩, t)
      | .ok d =>
        match (openStore files config store).run.run t with
        | (.error chain, u) => (some ⟨"", .error chain⟩, u)
        | (.ok s, u) =>
          (Option.map reported <$> (Traversal.ofDocument d).drain s.get .standard pulls).run u := by
  have content : (readFile files "Failed to read selector document" file).run.run t = (.ok β, t) :=
    Description.run_answer_eq_ok_iff.2 (Prod.ext read rfl)
  rw [run, StateT.run_bind, runSelect, Description.run_bind_eq, content]
  dsimp only
  cases Document.ofBytes β with
  | error ε => rfl
  | ok d =>
    dsimp only
    rw [Description.run_bind_eq]
    rcases (openStore files config store).run.run t with ⟨chain | s, u⟩
    · rfl
    · dsimp only
      rw [← printBlocks_eq_drain]
      rfl

end Command

namespace FileTree

/-- A folder that is only read stays as it is. -/
theorem after_store (r : Route) (t : FileTree) (past : List Cid) :
    (store r).get.after t past = t := by
  induction past with
  | nil => rfl
  | cons χ past ih =>
    rw [BlockReader.after, run_get]
    exact ih

/-- So it does when a traversal over its blocks is drained. -/
theorem run_drain_store (r : Route) (codecs : Registry) (d : Document) (pulls : Nat)
    (t : FileTree) :
    (((Traversal.ofDocument d).drain (store r).get codecs pulls).run t).2 = t := by
  have drained : Traversal.byHand (store r).get codecs d t pulls = _ :=
    Traversal.byHand_eq_record pulls
  rw [after_store] at drained
  rw [Traversal.run_drain]
  exact congrArg Traversal.ByHand.store drained

end FileTree

namespace Command

/-- **A command that selects blocks reports what a drain gives.** Say there is a file, with any
content. If that is no document, or if the store cannot be opened, the command fails and has printed
nothing. Otherwise the store is that of the folder that was chosen, and the command comes to an end
within some number of pulls if a drain of the document does. It has then printed the blocks that the
drain gives, in order and one a line, then a line with the instructions that were left over, if any
were; and its exit code tells whether the program was done, was not done, or failed. Where it says
that the program was done or that instructions were left over, the walk has ended so. -/
theorem select_reports_drain {t : FileTree} {file : String} {β : Bytes}
    (read : t.read (.ofText file) = .ok β) (config : Config) (store : Option String)
    (pulls : Nat) :
    (∀ ε, Document.ofBytes β = .error ε →
        ∃ chain, (run files config pulls (.select file store)).run t
          = (some ⟨"", .error chain⟩, t))
      ∧ ∀ d, Document.ofBytes β = .ok d →
        (∀ chain u, (openStore files config store).run.run t = (.error chain, u) →
          (run files config pulls (.select file store)).run t = (some ⟨"", .error chain⟩, u))
        ∧ ∀ s u, (openStore files config store).run.run t = (.ok s, u) →
          (∃ path, (store <|> config.storePath) = some path
            ∧ s = FileTree.store (.ofText path))
          ∧ ∃ sel? report?,
            ((Traversal.ofDocument d).drain s.get .standard pulls).run u = (sel?, u)
              ∧ (run files config pulls (.select file store)).run t = (report?, u)
              ∧ Option.Rel Tells sel? report?
              ∧ ∀ sel, sel? = some sel →
                Traversal.Truthful (Traversal.EndedWith s.get .standard d u pulls)
                  sel.outcome := by
  have does := run_select config store pulls read
  refine ⟨fun ε refused => ?_, fun d parsed => ⟨fun chain u closed => ?_, fun s u opened => ?_⟩⟩
  · rw [does, refused]
    exact ⟨_, rfl⟩
  · rw [does, parsed]
    dsimp only
    rw [closed]
  rw [parsed] at does
  dsimp only at does
  rw [opened] at does
  obtain ⟨path, chosen, rfl⟩ := eq_store_of_openStore opened
  rcases hd : ((Traversal.ofDocument d).drain (FileTree.store (.ofText path)).get .standard
    pulls).run u with ⟨sel?, w⟩
  obtain rfl : u = w := by
    rw [← run_drain_store (.ofText path) .standard d pulls u, hd]
  dsimp only at does
  rw [StateT.run_map, hd] at does
  refine ⟨⟨path, chosen, rfl⟩, sel?, sel?.map reported, rfl, does, ?_, ?_⟩
  · cases sel? with
    | none => exact .none
    | some sel => exact .some (tells_reported sel)
  · intro sel hsel
    have drained : Traversal.drainAfter (FileTree.store (.ofText path)).get .standard d u 0 pulls
        = some sel := (congrArg Prod.fst hd).trans hsel
    have truthful := Traversal.truthful_of_no_error drained nofun
    rw [Nat.zero_add] at truthful
    exact truthful

end Command

/-! ## One digit, printed -/

namespace OneDigit

open Command

/-- Asks for a field, which a digit does not have. -/
def program : List Selector := [.pick (.field "a")]

/-- Asks the digit for it. -/
def request : Document := ⟨one.cid, program⟩

/-- The document in a file, next to a folder with the digit. -/
def disk : FileTree :=
  ⟨[("d", .file (.ofText request.toText)), ("st", .folder [(fileName one.cid, .file one.data)])]⟩

theorem read_request : disk.read (.ofText "d") = .ok (.ofText request.toText) := by
  have route : Route.ofText "d" = ⟨["d"], false, 1⟩ := by cbv
  rw [route]
  rfl

theorem content_disk : disk.content (.ofText "st") = .ok [(fileName one.cid, .file one.data)] := by
  rw [route_ofText]
  rfl

theorem ofBytes_request : Document.ofBytes (.ofText request.toText) = .ok request := by
  have bytes : Json.ofBytes? (.ofText request.toText) = some request.toJson := by
    rw [Json.ofBytes?, Bytes.toText?_ofText]
    exact request.ofText?_toText
  rw [Document.ofBytes, bytes]
  exact Document.ofJson_eq_ok_iff.2 request.meansDocument_toJson

theorem run_get_one : ((FileTree.store (.ofText "st")).get one.cid).run disk
      = (.ok (some one), disk) := by
  have found : disk.read ((Route.ofText "st").child (fileName one.cid)) = .ok one.data := by
    rw [read_child (plain_fileName _) content_disk, if_pos (roomy_st.fileName _),
      Fields.find?_cons, if_pos rfl]
  have hashed : checked one.cid (.ok one.data) = .ok (some one) :=
    checked_of_hashed (Block.hashed_encoded _ _)
  rw [run_get, found, hashed]

theorem decode_one : Registry.standard.decode one = .ok (.int 1) := by
  have decoded : Codec.dagJson.decode [49] = .ok (.int 1) := by cbv
  exact congrArg (Except.mapError CodecError.decode) decoded

/-- The digit is given out, and then the walk ends. -/
theorem drain_request :
    ((Traversal.ofDocument request).drain (FileTree.store (.ofText "st")).get .standard 2).run disk
      = (some ⟨[one], .ok (.unresolved program)⟩, disk) := by
  have asks : (Traversal.ofDocument request).demand
    = .block one.cid (.top (.start program)) [] := rfl
  have loaded : Traversal.opened .standard one.cid (.ok (some one)) = .ok (one, .int 1) := by
    rw [Traversal.opened, decode_one]
  -- the walk does not depend on the identifier, which is the hash of a block
  have ends (χ : Cid) : ((Traversal.ofDocument ⟨χ, program⟩).entered (.int 1)
      (.top (.start program)) []).demand
        = .nothing ⟨χ, .done (.unresolved program), 1⟩ := by
    cbv
  have stays : ((Traversal.ofDocument request).entered (.int 1) (.top (.start program))
      []).demand = .nothing _ := ends one.cid
  rw [Traversal.drain, Traversal.run_drainFrom_succ, Traversal.run_pull_of_block _ _ asks,
    Traversal.run_load, run_get_one]
  dsimp only
  rw [loaded]
  dsimp only [Traversal.resume]
  rw [Traversal.run_drainFrom_succ, Traversal.run_pull_of_nothing _ _ stays]
  rfl

theorem openStore_disk : (openStore files .default (some "st")).run.run disk
    = (.ok (FileTree.store (.ofText "st")), disk) := by
  refine (openStore_eq_ok_iff rfl).2 ⟨_, ?_, rfl⟩
  rw [run_openFolder_of_content content_disk, if_pos roomy_st.possible]

/-- The digit is printed, and then what was asked of it and could not be done. -/
theorem select_reports_drain_one :
    disk.read (.ofText "d") = .ok (.ofText request.toText)
      ∧ ∃ report text v, (run files .default 2 (.select "d" (some "st"))).run disk
          = (some report, disk)
        ∧ report.ending = .ok 2
        ∧ report.out = line one.cid.toText
          ++ line ("The selector wasn't fully resolved: " ++ text)
        ∧ Json.ofText? text = some v ∧ Selector.programOfJson v = .ok program := by
  obtain ⟨-, reports⟩ := select_reports_drain read_request .default (some "st") 2
  obtain ⟨-, sel?, report?, drained, done, tells, -⟩ :=
    (reports request ofBytes_request).2 _ _ openStore_disk
  obtain rfl := congrArg Prod.fst (drain_request.symm.trans drained)
  cases tells with
  | some tells =>
    obtain ⟨_, noted, lines⟩ := tells.out
    cases noted with
    | unresolved parsed means =>
      refine ⟨read_request, _, _, _, done, tells.unresolved.2 ⟨_, rfl⟩, ?_, parsed, means⟩
      rw [lines.joined]
      simp [String.join_cons]

end OneDigit

end BlockWalk
