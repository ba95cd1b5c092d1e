import NovumAgent.Lib.Utf8

/-!
# Tokens, counted in bytes

The source never tokenises: a token is four bytes, rounded up when text is measured and multiplied
out when a budget is spent. The two directions are `approxTokenCount` and `approxBytesForTokens`.
-/

namespace NovumAgent.ToolOutput

open Utf8

def approxBytesPerToken : Nat := 4

/-- `approx_tokens_from_byte_count`: the tokens that many bytes fill, the last one perhaps in
part. -/
def approxTokensFromByteCount (bytes : Nat) : Nat :=
  saturatingAdd bytes (approxBytesPerToken - 1) / approxBytesPerToken

def approxTokenCount (text : Text) : Nat := approxTokensFromByteCount (byteLen text)

def approxBytesForTokens (tokens : Nat) : Nat := saturatingMul tokens approxBytesPerToken

/-- `TruncationPolicy`: how much output a response may show the model. -/
inductive TruncationPolicy where
  | bytes (limit : Nat)
  | tokens (limit : Nat)

def TruncationPolicy.tokenBudget : TruncationPolicy → Nat
  | .bytes limit => approxTokensFromByteCount limit
  | .tokens limit => limit

theorem approxTokensFromByteCount_eq {bytes tokens : Nat} (hle : bytes ≤ 4 * tokens)
    (hlt : 4 * tokens < bytes + 4) (hfit : bytes ≤ isizeMax) :
    approxTokensFromByteCount bytes = tokens := by
  have hmax := isizeMax_lt_usizeMax
  have hsum : saturatingAdd bytes 3 = bytes + 3 := saturatingAdd_of_le (by omega)
  show saturatingAdd bytes 3 / 4 = tokens
  rw [hsum]
  omega

end NovumAgent.ToolOutput
