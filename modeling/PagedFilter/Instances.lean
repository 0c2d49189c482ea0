/-! Powers and equality of buffers are those of the core library in every module. -/

attribute [instance (high), default_instance (high + 1)] instPowNat

attribute [instance (high)] ByteArray.instDecidableEq
