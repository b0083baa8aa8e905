import RepositoryManager.Lib.Sieve
import RepositoryManager.LexerReading

/-! # The token stream

`antlr3tokenstream.c`: the buffer of all tokens, hidden ones included, and the position from
which the parser looks ahead and back. Whatever order it is called in, it answers as an
array of the visible tokens alone would.
-/

namespace RepositoryManager

open ByteString Lexer Sieve

/-- `ANTLR3_COMMON_TOKEN_STREAM` once its buffer is filled. -/
structure TokenStream where
  tokens : List Token
  channel : Nat
  p : Nat

/-- What a look at the stream gives: a token of it, the token for its end, or `NULL`. -/
inductive Look where
  | token (t : Token)
  | eof
  | null
  deriving DecidableEq

/-- The token is on the channel of the parser. -/
def onChannel (channel : Nat) (t : Token) : Bool := t.channel = channel

namespace TokenStream

def skipOffTokenChannels (s : TokenStream) (i : Nat) : Nat := skip (onChannel s.channel) s.tokens i

/-- From the index before `i` on. A negative index is `none`. -/
def skipOffTokenChannelsReverse (s : TokenStream) (i : Nat) : Option Nat :=
  skipBack (onChannel s.channel) s.tokens i

/-- `fillBuffer`, with the tokens that `nextToken` has given. -/
def fillBuffer (tokens : List Token) : TokenStream :=
  let s : TokenStream := { tokens, channel := defaultChannel, p := 0 }
  { s with p := s.skipOffTokenChannels s.p }

/-- The loop of `LB`, with `k` rounds to go. -/
def loopLB (s : TokenStream) : Nat → Nat → Option Nat
  | 0, i => some i
  | k + 1, i => (s.skipOffTokenChannelsReverse i).bind (s.loopLB k)

theorem loopLB_eq (s : TokenStream) (k i : Nat) :
    s.loopLB k i = backward (onChannel s.channel) s.tokens k i := by
  induction k generalizing i with
  | zero => rfl
  | succ k ih => exact Option.bind_congr fun i _ => ih i

def LB (s : TokenStream) (k : Nat) : Look :=
  if k = 0 then .null
  else if s.p < k then .null
  else
    match (s.loopLB k s.p).bind fun i => s.tokens[i]? with
    | some t => .token t
    | none => .null

def tokLT (s : TokenStream) (k : Int) : Look :=
  if k < 0 then s.LB k.natAbs
  else if (s.tokens.length : Int) ≤ s.p + k - 1 then .eof
  else
    match s.tokens[forward (onChannel s.channel) s.tokens (k.toNat - 1) s.p]? with
    | some t => .token t
    | none => .eof

def consume (s : TokenStream) : TokenStream :=
  if s.p < s.tokens.length then { s with p := s.skipOffTokenChannels (s.p + 1) } else s

/-- `mark`, which is `index` as well. -/
def tindex (s : TokenStream) : Nat := s.p

def seek (s : TokenStream) (index : Nat) : TokenStream := { s with p := index }

end TokenStream

/-! ## Series of calls -/

/-- What a parser can do with a stream: look at a token, consume one, mark where it is, go
    back to a mark, and ask whether it is at one. Marks are known by their order. -/
inductive StreamCall where
  | lt (k : Int)
  | consume
  | mark
  | rewind (i : Nat)
  | atMark (i : Nat)

inductive StreamAnswer where
  | look (l : Look)
  | atMark (b : Bool)
  deriving DecidableEq

/-- A stream of tokens, by its functions. -/
structure StreamFunctions (σ : Type) where
  lt : σ → Int → Look
  consume : σ → σ
  index : σ → Nat
  seek : σ → Nat → σ

namespace StreamFunctions

variable {σ : Type} (f : StreamFunctions σ)

/-- The answers to a series of calls, from the marks that are set. A mark that is not set is
    not gone back to, and nothing is at it. -/
def answers : List StreamCall → List Nat → σ → List StreamAnswer
  | [], _, _ => []
  | .lt k :: calls, marks, s => .look (f.lt s k) :: answers calls marks s
  | .consume :: calls, marks, s => answers calls marks (f.consume s)
  | .mark :: calls, marks, s => answers calls (marks ++ [f.index s]) s
  | .rewind i :: calls, marks, s =>
      match marks[i]? with
      | some m => answers calls marks (f.seek s m)
      | none => answers calls marks s
  | .atMark i :: calls, marks, s => .atMark (marks[i]? = some (f.index s)) :: answers calls marks s

end StreamFunctions

def TokenStream.functions : StreamFunctions TokenStream where
  lt := TokenStream.tokLT
  consume := TokenStream.consume
  index := TokenStream.tindex
  seek := TokenStream.seek

/-! ### What a stream is for -/

/-- An array of tokens and a position in it. -/
structure TokenArray where
  all : List Token
  pos : Nat

/-- `LT(0)`, which is left undefined, is `LT(1)`. -/
def TokenArray.lt (s : TokenArray) (k : Int) : Look :=
  if k < 0 then
    match (s.all.take s.pos).reverse[k.natAbs - 1]? with
    | some t => .token t
    | none => .null
  else
    match s.all[s.pos + (k.toNat - 1)]? with
    | some t => .token t
    | none => .eof

def TokenArray.functions : StreamFunctions TokenArray where
  lt := TokenArray.lt
  consume := fun s => if s.pos < s.all.length then { s with pos := s.pos + 1 } else s
  index := TokenArray.pos
  seek := fun s index => { s with pos := index }

/-! ## The stream is such an array -/

section

variable {tokens : List Token} {channel p pos m m' : Nat}

/-- The visible tokens. -/
def visibles (tokens : List Token) (channel : Nat) : List Token := tokens.filter (onChannel channel)

/-- The position in the stream at which the visible tokens are at `pos`. -/
structure At (tokens : List Token) (channel p pos : Nat) : Prop where
  rests : Rests (onChannel channel) tokens p
  inside : p ≤ tokens.length
  pos : (behind (onChannel channel) tokens p).length = pos

theorem At.behind (here : At tokens channel p pos) :
    behind (onChannel channel) tokens p = (visibles tokens channel).take pos := by
  rw [visibles, ← behind_append_ahead p, ← here.pos, List.take_left]

theorem At.ahead (here : At tokens channel p pos) :
    ahead (onChannel channel) tokens p = (visibles tokens channel).drop pos := by
  rw [visibles, ← behind_append_ahead p, ← here.pos, List.drop_left]

theorem at_fillBuffer (tokens : List Token) :
    At tokens defaultChannel (TokenStream.fillBuffer tokens).p 0 where
  rests := rests_skip 0
  inside := skip_le (Nat.zero_le _)
  pos := by
    show (Sieve.behind _ tokens (skip _ tokens 0)).length = 0
    rw [behind_skip]
    rfl

theorem At.lt (here : At tokens channel p pos) (k : Int) :
    TokenStream.tokLT ⟨tokens, channel, p⟩ k = TokenArray.lt ⟨visibles tokens channel, pos⟩ k := by
  unfold TokenStream.tokLT TokenArray.lt
  split
  · obtain ⟨n, size⟩ : ∃ n, k.natAbs = n + 1 := ⟨k.natAbs - 1, by omega⟩
    rw [size, TokenStream.LB, if_neg (Nat.succ_ne_zero n), Nat.add_sub_cancel, ← here.behind,
      ← backward_get, TokenStream.loopLB_eq]
    split
    · next short =>
        have few : (Sieve.behind (onChannel channel) tokens p).length ≤ p := behind_length_le p
        have none : (Sieve.behind (onChannel channel) tokens p).reverse[n]? = none := by
          rw [List.getElem?_eq_none_iff, List.length_reverse]
          simp only at short
          omega
        rw [backward_get, none]
    · rfl
  · have inside := here.inside
    rw [← List.getElem?_drop, ← here.ahead]
    split
    · next far =>
        have few : (Sieve.ahead (onChannel channel) tokens p).length ≤ tokens.length - p :=
          ahead_length_le p
        have none : (Sieve.ahead (onChannel channel) tokens p)[k.toNat - 1]? = none := by
          rw [List.getElem?_eq_none_iff]
          simp only at far
          omega
        rw [none]
    · rw [here.rests.forward_get]

theorem At.consume (here : At tokens channel p pos) :
    ∃ p' pos', TokenStream.consume ⟨tokens, channel, p⟩ = ⟨tokens, channel, p'⟩ ∧
      TokenArray.functions.consume ⟨visibles tokens channel, pos⟩ =
        ⟨visibles tokens channel, pos'⟩ ∧ At tokens channel p' pos' := by
  unfold TokenStream.consume
  by_cases inside : p < tokens.length
  · have present := List.getElem?_eq_getElem inside
    have more : pos < (visibles tokens channel).length := by
      have some_ahead := congrArg List.length (here.rests.ahead present)
      rw [here.ahead, List.length_drop, List.length_cons] at some_ahead
      omega
    refine ⟨_, _, if_pos inside, if_pos more, rests_skip _, skip_le inside, ?_⟩
    show (Sieve.behind _ tokens (skip _ tokens (p + 1))).length = pos + 1
    rw [behind_skip, behind_succ present, here.rests _ present, if_pos rfl, List.length_append,
      here.pos, List.length_singleton]
  · have last : ¬ pos < (visibles tokens channel).length := by
      have none : Sieve.ahead (onChannel channel) tokens p = [] :=
        ahead_past (Nat.le_of_not_lt inside)
      rw [here.ahead, List.drop_eq_nil_iff] at none
      exact Nat.not_lt.mpr none
    exact ⟨_, _, if_neg inside, if_neg last, here⟩

theorem At.index_iff (here : At tokens channel p pos) (there : At tokens channel m m') :
    m = p ↔ m' = pos := by
  constructor
  · rintro rfl
    rw [← here.pos, ← there.pos]
  · rintro rfl
    refine rests_inj there.rests here.rests there.inside here.inside ?_
    rw [here.ahead, there.ahead]

end

/-- Hidden tokens make no difference to any series of calls. -/
theorem stream_answers (tokens : List Token) (calls : List StreamCall) :
    TokenStream.functions.answers calls [] (.fillBuffer tokens) =
      TokenArray.functions.answers calls [] ⟨visibles tokens defaultChannel, 0⟩ := by
  suffices general : ∀ (marks : List (Nat × Nat)) p pos, At tokens defaultChannel p pos →
      (∀ m ∈ marks, At tokens defaultChannel m.1 m.2) →
      TokenStream.functions.answers calls (marks.map Prod.fst) ⟨tokens, defaultChannel, p⟩ =
        TokenArray.functions.answers calls (marks.map Prod.snd)
          ⟨visibles tokens defaultChannel, pos⟩ from
    general [] _ 0 (at_fillBuffer tokens) (List.forall_mem_nil _)
  induction calls with
  | nil => exact fun _ _ _ _ _ => rfl
  | cons call calls ih =>
      intro marks p pos here marked
      cases call with
      | lt k =>
          exact congrArg₂ (fun l rest => .look l :: rest) (here.lt k) (ih marks p pos here marked)
      | consume =>
          obtain ⟨p', pos', same, same', next⟩ := here.consume
          have later := ih marks p' pos' next marked
          rw [← same, ← same'] at later
          exact later
      | mark =>
          have later := ih (marks ++ [(p, pos)]) p pos here
            (List.forall_mem_append.mpr ⟨marked, List.forall_mem_singleton.mpr here⟩)
          rw [List.map_append, List.map_append] at later
          exact later
      | rewind i =>
          simp only [StreamFunctions.answers, List.getElem?_map]
          cases found : marks[i]? with
          | none => exact ih marks p pos here marked
          | some m => exact ih marks m.1 m.2 (marked m (List.mem_of_getElem? found)) marked
      | atMark i =>
          have same : ((marks.map Prod.fst)[i]? = some p) ↔ (marks.map Prod.snd)[i]? = some pos := by
            rw [List.getElem?_map, List.getElem?_map]
            cases found : marks[i]? with
            | none => simp
            | some m => simpa using here.index_iff (marked m (List.mem_of_getElem? found))
          exact congrArg₂ (fun b rest => .atMark b :: rest) (decide_eq_decide.mpr same)
            (ih marks p pos here marked)

end RepositoryManager
