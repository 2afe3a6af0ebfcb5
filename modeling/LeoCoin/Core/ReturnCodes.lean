/-!
# Return Codes

The failures a function of the project can report.

A function that returns `SUCCESS` returns a value of the model, so success is
not among the codes: a result is `.ok` or one of the failures. The consensus
peer server also stores what the pthread functions return in its
`return_code`. That is an error number and need not be one of the codes, so it
has a constructor of its own.

## Main definitions

* `ReturnCode`: The value of a `return_code_t` other than `SUCCESS`.
-/

namespace LeoCoin

inductive ReturnCode where
  | failureCouldNotMalloc
  | failureInvalidInput
  | failureLinkedListEmpty
  | failureLinkedListNoCompareFunction
  | failureCouldNotFindValidProofOfWork
  | failureInvalidCommandLineArgs
  | failureOpensslFunction
  | failureFileIo
  | failureSignatureTooLong
  | failureBufferTooSmall
  | failureInvalidBlockchain
  | failurePthreadFunction
  | failureStoppedEarly
  | failureLongerBlockchainDetected
  | failureNetworkFunction
  | failureInvalidCommandPrefix
  | failureInvalidCommand
  | failureInvalidCommandLen
  | failureSleep
  /-- An error number of a pthread function, stored as it was returned. -/
  | errno (code : Nat)
  deriving DecidableEq, Repr

end LeoCoin
