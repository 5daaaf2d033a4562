import PluginSdk.ElementIndex
import PluginSdk.CoreHelper
import PluginSdk.PolySimulation
import PluginSdk.PolyTails
import PluginSdk.MidiGenerator
import PluginSdk.SysEx
import PluginSdk.Port
import PluginSdk.Bypass
import PluginSdk.ElementLookup
import PluginSdk.ComparatorSort
import PluginSdk.ElementSort
import PluginSdk.Rounding
import PluginSdk.SwitchPositions
import PluginSdk.BypassTable
import PluginSdk.PythonFloat
import PluginSdk.SvgParseHelpers
import PluginSdk.ComponentName
import PluginSdk.Collecting
import PluginSdk.PanelComponents
import PluginSdk.UnknownShapes
import PluginSdk.AltParamDefaults
import PluginSdk.LegacyEnum
import PluginSdk.ComponentOrder
import PluginSdk.JackNumbers
import PluginSdk.DashNumber
import PluginSdk.InfoFile
import PluginSdk.ElemNames
import PluginSdk.CppLiterals
import PluginSdk.ElemLiterals
import PluginSdk.CreateInfo
import PluginSdk.DrawingDpi
import PluginSdk.MinBlep
import PluginSdk.MinBlepTail
import PluginSdk.AppleRingBuffer
import PluginSdk.DoubleRingBuffer
import PluginSdk.RingBufferThreads
import PluginSdk.WeakPtr
import PluginSdk.MidiReceiver
import PluginSdk.Resampler
import PluginSdk.RealTimeConvolver
import PluginSdk.Digital
import PluginSdk.BiquadFilter
import PluginSdk.BinaryFloat
import PluginSdk.SinglePrecision
import PluginSdk.SingleConversions
import PluginSdk.PolynomialBound
import PluginSdk.Approx
import PluginSdk.Exp2
import PluginSdk.Random
